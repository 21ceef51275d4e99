import ScriptLang.Check
import ScriptLang.Eval

/-!
# Sessions

A session runs one source after the other.  Globals, classes and objects, the distances of all programs run so far and
the labels in use stay from run to run.  A fault that is found before a run makes the session not runnable until it is
reset; a fault during a run does not.
-/

namespace ScriptLang

/-- An interpreter with all that stays between two runs. -/
structure Session where
  machine : Machine
  distances : Distances
  hosts : Array Host
  /-- The first label that no program has used. -/
  fresh : Label
  runnable : Bool
  hadRuntimeFault : Bool

/-- How far a run got. -/
inductive Outcome
  | completed
  | staticError
  | runtimeError
  /-- The run used up its fuel. -/
  | unfinished
deriving DecidableEq, Repr

/-- The exit code of a process that ends with the outcome. -/
def Outcome.exitCode : Outcome → Nat
  | completed => 0
  | staticError => 65
  | runtimeError => 70
  | unfinished => 75

/-- What a run answers. -/
structure Answer where
  outcome : Outcome
  diagnostics : List Diagnostic
  session : Session

namespace Session

/-- The session with a built-in function among its globals. -/
def defineBuiltin (s : Session) (b : Builtin) : Session :=
  let heap := s.machine.heap
  let defined := heap.define Heap.globals b.name (.builtin heap.nextTag b)
  { s with machine := { s.machine with heap := { defined with nextTag := heap.nextTag + 1 } } }

/-- The session with a host function among its globals. -/
def defineHost (s : Session) (name : String) (arity : Nat) (f : Host) : Session :=
  ({ s with hosts := s.hosts.push f }).defineBuiltin ⟨name, arity, .host s.hosts.size⟩

/-- A new session with the standard built-in functions. -/
def start (console : Console) : Session :=
  Builtin.standard.foldl defineBuiltin ⟨⟨Heap.initial, console⟩, [], #[], 0, true, false⟩

/-- Forgets faults and keeps everything else. -/
def reset (s : Session) : Session := { s with runnable := true, hadRuntimeFault := false }

/-- The value of a global name. -/
def global? (s : Session) (name : String) : Option Value :=
  Assoc.get? (s.machine.heap.frames.bindings Heap.globals) name

/-- What the session wrote so far. -/
def output (s : Session) : ByteArray := s.machine.console.sink.written

/-- What programs of the session are run with. -/
def setting (s : Session) : Setting := ⟨s.distances, s.hosts⟩

/-- Refuses a run. -/
def refuse (s : Session) (diagnostics : List Diagnostic) : Answer :=
  ⟨.staticError, diagnostics, { s with runnable := false }⟩

/-- Runs a program that was checked. -/
def execute (fuel : Nat) (s : Session) (program : List Stmt) : Answer :=
  match (do Exec.program fuel s.setting program; Exec.flush : Exec Unit) s.machine with
  | .done _ machine => ⟨.completed, [], { s with machine }⟩
  | .failed fault machine => ⟨.runtimeError, [fault.toDiagnostic], { s with machine, hadRuntimeFault := true }⟩
  | .outOfFuel => ⟨.unfinished, [], s⟩

/-- Runs a source.  It is read as a program even after lexical faults, so that both kinds of faults are reported; only
a session that is runnable goes on from there. -/
def run (fuel : Nat) (s : Session) (source : String) : Answer :=
  let lexical := lexicalDiagnostics source
  let parsed := parse s.fresh (tokensOf source)
  let s := { s with fresh := parsed.fresh }
  match parsed.result with
  | .error reports => s.refuse (lexical ++ reports.map .ofSyntax)
  | .ok program =>
    if !lexical.isEmpty || !s.runnable then s.refuse lexical
    else
      match resolveProgram program with
      | .error reports => s.refuse (reports.map .ofScope)
      | .ok distances => execute fuel { s with distances := Assoc.setAll s.distances distances } program

/-! ## looking at values -/

/-- What became of statements that were run one by one: the values of those that are expressions, and the fault that
stopped them. -/
structure Trace where
  values : List Value
  fault : Option Fault
  machine : Machine

/-- Runs statements among the globals and keeps the values of those that are expressions. -/
def traceFrom (fuel : Nat) (σ : Setting) : List Stmt → List Value → Machine → Trace
  | [], values, m => ⟨values.reverse, none, m⟩
  | .expr e :: rest, values, m =>
    match Exec.eval fuel σ Heap.globals e m with
    | .done v next => traceFrom fuel σ rest (v :: values) next
    | .failed fault next => ⟨values.reverse, some fault, next⟩
    | .outOfFuel => ⟨values.reverse, none, m⟩
  | stmt :: rest, values, m =>
    match Exec.exec fuel σ Heap.globals stmt m with
    | .done _ next => traceFrom fuel σ rest values next
    | .failed fault next => ⟨values.reverse, some fault, next⟩
    | .outOfFuel => ⟨values.reverse, none, m⟩

/-- Runs the statements of a program in a new session and keeps the values of those that are expressions. -/
def trace (fuel : Nat) (s : Session) (program : List Stmt) (distances : Distances) : Trace :=
  traceFrom fuel ⟨distances, s.hosts⟩ program [] s.machine

end Session

/-- The names of the fields of an object, in order. -/
def Heap.fieldNames (h : Heap) (o : ObjectRef) : List String :=
  (Assoc.keys (h.fields o)).mergeSort fun a b => a ≤ b

/-- A detailed text of a value: the superclass of a class, the fields of an object. -/
def Value.detail? (h : Heap) : Value → Option String
  | .function _ c => some ("<fn " ++ c.name ++ ">")
  | .klass c =>
    let parent := match c.superclass? with
      | some p => "Some(" ++ Text.quote p.name ++ ")"
      | none => "None"
    some ("LoxClass \x7b name: " ++ Text.quote c.name ++ ", superclass: " ++ parent ++ " \x7d")
  | .object o c =>
    let fields := String.intercalate ", " ((h.fieldNames o).map Text.quote)
    some ("LoxInstance \x7b class: " ++ Text.quote c.name ++ ", fields: [" ++ fields ++ "] \x7d")
  | _ => none

end ScriptLang
