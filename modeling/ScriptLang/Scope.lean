import ScriptLang.Assoc
import ScriptLang.Diagnostic
import ScriptLang.Tree

/-!
# Static scopes

`Stmt.resolve` walks a tree with the scopes around each node and finds two things: the violations of the scope rules,
and for each occurrence of a name the number of scopes between it and the scope that binds it.  Names that no scope
binds are global and have no distance.

What a statement adds to the scope it stands in is known beforehand (`Stmt.declared`), so the scopes go down the tree
and the findings come up, and nothing else passes between two statements.
-/

namespace ScriptLang

/-! ## scopes -/

/-- The names of one scope, each with whether it is ready for use; a variable is not while its initializer runs. -/
abbrev Scope : Type := Assoc String Bool

/-- The scopes around a node, innermost first; none at the top level, where names are global. -/
abbrev Scopes : Type := List Scope

namespace Scopes

/-- The scopes with a name set in the innermost one. -/
def put (ready : Bool) (name : String) : Scopes → Scopes
  | [] => []
  | scope :: outer => Assoc.set scope name ready :: outer

/-- Whether the innermost scope has a name. -/
def declares (name : String) : Scopes → Bool
  | [] => false
  | scope :: _ => (Assoc.get? scope name).isSome

/-- Whether the innermost scope has a name that is not ready. -/
def isPending (name : String) : Scopes → Bool
  | [] => false
  | scope :: _ => Assoc.get? scope name = some false

/-- The number of scopes between a node and the innermost scope that has a name. -/
def distance? (name : String) : Scopes → Option Nat
  | [] => none
  | scope :: outer => if (Assoc.get? scope name).isSome then some 0 else (distance? name outer).map (· + 1)

@[simp] theorem length_put (ready : Bool) (name : String) (scopes : Scopes) :
    (scopes.put ready name).length = scopes.length := by
  cases scopes <;> rfl

/-- Only the innermost scope is written. -/
@[simp] theorem tail_put (ready : Bool) (name : String) (scopes : Scopes) :
    (scopes.put ready name).tail = scopes.tail := by
  cases scopes <;> rfl

end Scopes

/-! ## places -/

/-- The innermost function around a node. -/
inductive FunctionPlace
  | none
  | function
  | method
  | initializer
deriving DecidableEq, Repr

/-- The innermost class around a node. -/
inductive ClassPlace
  | none
  | plain
  | derived
deriving DecidableEq, Repr

/-- What surrounds a node apart from scopes. -/
structure Place where
  function : FunctionPlace
  klass : ClassPlace
  /-- Whether a loop stands between the node and the innermost function. -/
  inLoop : Bool

/-- Outside of everything. -/
def Place.top : Place := ⟨.none, .none, false⟩

/-! ## findings -/

/-- Violations of the scope rules and distances of occurrences, both in the order they were found. -/
structure Findings where
  faults : List (Report ScopeFault)
  distances : List (Label × Nat)

namespace Findings

/-- Nothing found. -/
def nothing : Findings := ⟨[], []⟩

/-- A violation at a token. -/
def fault (anchor : Token) (cause : ScopeFault) : Findings := ⟨[⟨anchor, cause⟩], []⟩

/-- A violation if a test holds. -/
def faultIf (test : Bool) (anchor : Token) (cause : ScopeFault) : Findings :=
  if test then fault anchor cause else nothing

instance : Append Findings where
  append a b := ⟨a.faults ++ b.faults, a.distances ++ b.distances⟩

@[simp] theorem faults_append (a b : Findings) : (a ++ b).faults = a.faults ++ b.faults := rfl

@[simp] theorem distances_append (a b : Findings) : (a ++ b).distances = a.distances ++ b.distances := rfl

@[simp] theorem nothing_append (a : Findings) : nothing ++ a = a := rfl

@[simp] theorem append_nothing (a : Findings) : a ++ nothing = a := by
  show (⟨a.faults ++ [], a.distances ++ []⟩ : Findings) = a
  simp

theorem append_assoc (a b c : Findings) : a ++ b ++ c = a ++ (b ++ c) := by
  show (⟨a.faults ++ b.faults ++ c.faults, a.distances ++ b.distances ++ c.distances⟩ : Findings) =
    ⟨a.faults ++ (b.faults ++ c.faults), a.distances ++ (b.distances ++ c.distances)⟩
  rw [List.append_assoc, List.append_assoc]

/-- The distance of an occurrence, if its name is bound by a scope. -/
def occurrence (scopes : Scopes) (label : Label) (name : Token) : Findings :=
  match scopes.distance? name.lexeme with
  | some d => ⟨[], [(label, d)]⟩
  | none => nothing

end Findings

/-! ## the walk -/

open Findings

mutual

/-- The findings in an expression. -/
def Expr.resolve (place : Place) (scopes : Scopes) : Expr → Findings
  | .literal _ => nothing
  | .group e => e.resolve place scopes
  | .unary _ r => r.resolve place scopes
  | .binary l _ r => l.resolve place scopes ++ r.resolve place scopes
  | .logical l _ r => l.resolve place scopes ++ r.resolve place scopes
  | .variable label name =>
    faultIf (scopes.isPending name.lexeme) name .ownInitializer ++ occurrence scopes label name
  | .assign label name v => v.resolve place scopes ++ occurrence scopes label name
  | .call f _ args => f.resolve place scopes ++ Expr.resolveAll place scopes args
  | .get o _ => o.resolve place scopes
  | .set o _ v => o.resolve place scopes ++ v.resolve place scopes
  | .this label keyword =>
    match place.klass with
    | .none => fault keyword .thisOutsideClass
    | _ => occurrence scopes label keyword
  | .super label keyword _ =>
    match place.klass with
    | .none => fault keyword .superOutsideClass
    | .plain => fault keyword .superWithoutSuperclass
    | .derived => occurrence scopes label keyword

/-- The findings in expressions, in order. -/
def Expr.resolveAll (place : Place) (scopes : Scopes) : List Expr → Findings
  | [] => nothing
  | e :: es => e.resolve place scopes ++ Expr.resolveAll place scopes es

end

/-- The findings in an expression that may be absent. -/
def Expr.resolveIn (place : Place) (scopes : Scopes) : Option Expr → Findings
  | none => nothing
  | some e => e.resolve place scopes

/-- A name declared where the innermost scope has it already. -/
def redeclared (scopes : Scopes) (name : Token) : Findings :=
  faultIf (scopes.declares name.lexeme) name .redeclaration

/-- The names that a statement adds to the scope it stands in. -/
def Stmt.declared : Stmt → List Token
  | .varDecl name _ => [name]
  | .funDecl d => [d.name]
  | .classDecl name _ _ => [name]
  | .ifThen _ t => t.declared
  | .ifElse _ t e => t.declared ++ e.declared
  | .loop _ b _ => b.declared
  | _ => []

/-- The scopes after declaring names. -/
def Scopes.declareAll (scopes : Scopes) (names : List Token) : Scopes :=
  names.foldl (fun s name => Scopes.put true name.lexeme s) scopes

@[simp] theorem Scopes.length_declareAll (scopes : Scopes) (names : List Token) :
    (scopes.declareAll names).length = scopes.length := by
  unfold declareAll
  induction names generalizing scopes with
  | nil => rfl
  | cons name names ih => rw [List.foldl_cons, ih, length_put]

@[simp] theorem Scopes.tail_declareAll (scopes : Scopes) (names : List Token) :
    (scopes.declareAll names).tail = scopes.tail := by
  unfold declareAll
  induction names generalizing scopes with
  | nil => rfl
  | cons name names ih => rw [List.foldl_cons, ih, tail_put]

/-- The scopes behind a statement. -/
def Scopes.after (scopes : Scopes) (s : Stmt) : Scopes := scopes.declareAll s.declared

/-- The redeclarations in a list of parameters. -/
def resolveParams (scopes : Scopes) : List Token → Findings
  | [] => nothing
  | p :: ps => redeclared scopes p ++ resolveParams (scopes.put true p.lexeme) ps

/-- A superclass must not be the class itself. -/
def selfInheritance (name : Token) : Option Expr → Findings
  | some (.variable _ other) => faultIf (other.lexeme = name.lexeme) other .selfInheritance
  | _ => nothing

/-- The scope of one name that is ready. -/
def Scope.only (name : String) : Scope := [(name, true)]

/-- The scopes of the methods of a class: one for `this`, outside of it one for `super` if there is a superclass. -/
def Scopes.ofClass (scopes : Scopes) (superclass : Option Expr) : Scopes :=
  match superclass with
  | some _ => Scope.only "this" :: Scope.only "super" :: scopes
  | none => Scope.only "this" :: scopes

/-- The kind of class that a superclass makes. -/
def ClassPlace.of (superclass : Option Expr) : ClassPlace := if superclass.isSome then .derived else .plain

/-- The place of a method body. -/
def FunctionPlace.ofMethod (d : FunctionDecl) : FunctionPlace := if d.isInit then .initializer else .method

mutual

/-- The findings in a statement. -/
def Stmt.resolve (place : Place) (scopes : Scopes) : Stmt → Findings
  | .expr e => e.resolve place scopes
  | .print _ e => e.resolve place scopes
  | .varDecl name e =>
    redeclared scopes name ++ Expr.resolveIn place (scopes.put false name.lexeme) e
  | .block body => Stmt.resolveAll place ([] :: scopes) body
  | .ifThen c t => c.resolve place scopes ++ t.resolve place scopes
  | .ifElse c t e =>
    c.resolve place scopes ++ t.resolve place scopes ++ e.resolve place (scopes.after t)
  | .loop c b i =>
    c.resolve place scopes ++ b.resolve { place with inLoop := true } scopes ++
      Expr.resolveIn place (scopes.after b) i
  | .funDecl d =>
    redeclared scopes d.name ++ d.resolve ⟨.function, place.klass, false⟩ (scopes.put true d.name.lexeme)
  | .returnFrom keyword e =>
    faultIf (place.function = .none) keyword .returnAtTopLevel ++
      faultIf (e.isSome && place.function = .initializer) keyword .valueFromInitializer ++
      Expr.resolveIn place scopes e
  | .classDecl name s ms =>
    let inner := scopes.put true name.lexeme
    let klass := ClassPlace.of s
    redeclared scopes name ++ selfInheritance name s ++ Expr.resolveIn { place with klass } inner s ++
      FunctionDecl.resolveMethods klass (inner.ofClass s) ms
  | .breakLoop keyword => faultIf (!place.inLoop) keyword .breakOutsideLoop
  | .continueLoop keyword => faultIf (!place.inLoop) keyword .continueOutsideLoop

/-- The findings in statements, each in the scopes behind those before it. -/
def Stmt.resolveAll (place : Place) (scopes : Scopes) : List Stmt → Findings
  | [] => nothing
  | s :: rest => s.resolve place scopes ++ Stmt.resolveAll place (scopes.after s) rest

/-- The findings in a function: its parameters and its body share one scope. -/
def FunctionDecl.resolve (place : Place) (scopes : Scopes) : FunctionDecl → Findings
  | .mk _ params body =>
    resolveParams ([] :: scopes) params ++
      Stmt.resolveAll place (Scopes.declareAll ([] :: scopes) params) body

/-- The findings in the methods of a class. -/
def FunctionDecl.resolveMethods (klass : ClassPlace) (scopes : Scopes) : List FunctionDecl → Findings
  | [] => nothing
  | d :: ds =>
    d.resolve ⟨FunctionPlace.ofMethod d, klass, false⟩ scopes ++ FunctionDecl.resolveMethods klass scopes ds

end

/-! ## tables -/

/-- Distances of occurrences; those without one are global. -/
abbrev Distances : Type := Assoc Label Nat

/-- The distances in a program, or the violations of the scope rules. -/
def resolveProgram (program : List Stmt) : Except (List (Report ScopeFault)) Distances :=
  let findings := Stmt.resolveAll .top [] program
  if findings.faults.isEmpty then .ok (Assoc.setAll [] findings.distances) else .error findings.faults

end ScriptLang
