import ScriptLang.Machine
import ScriptLang.Operator
import ScriptLang.Scope
import ScriptLang.Text.Escape

/-!
# Evaluation

`eval` evaluates expressions and `exec` runs statements, both in a frame that the caller hands over.  How a statement
ended travels in its `Flow`, and faults in `Exec`.  All functions of the recursion take a number that bounds the depth
of calls between them; a run that reaches the bound ends as `outOfFuel` and as nothing else.
-/

namespace ScriptLang

/-- What stays the same during a run: the distances of occurrences and the host functions. -/
structure Setting where
  distances : Distances
  hosts : Array Host

/-- The distance of an occurrence; none for a global. -/
def Setting.distance? (σ : Setting) (label : Label) : Option Nat := Assoc.get? σ.distances label

/-- How a statement ended. -/
inductive Flow
  | normal
  | returned (v : Value)
  | broken
  | continued

/-- The value of a function whose body ended. -/
def Flow.result : Flow → Value
  | returned v => v
  | _ => .nil

namespace Exec

/-! ## the parts without recursion -/

/-- Prints a value; the escapes of a string are decoded, and those that mean nothing fail at the keyword. -/
def print (keyword : Token) (v : Value) : Exec Unit :=
  match v with
  | .string raw =>
    match Text.unescape raw with
    | .ok s => write (s ++ "\n")
    | .error c => fail keyword (.invalidEscape c)
  | other => write (other.display ++ "\n")

/-- Reads a property: a field, or a method of the class bound to the object. -/
def getProperty (o : ObjectRef) (c : Class) (name : Token) : Exec Value := do
  match ← field? o name.lexeme with
  | some v => pure v
  | none =>
    match c.method? name.lexeme with
    | some method => boundMethod method (.object o c)
    | none => fail name (.undefinedProperty name.lexeme)

/-- Reads a method of the superclass: that class stands at a distance, the instance one frame nearer. -/
def getSuper (distance : Option Nat) (e : FrameRef) (keyword method : Token) : Exec Value := do
  match distance with
  | none => fail keyword (.undefinedVariable "super")
  | some d =>
    match ← readName (some d) e keyword with
    | .klass parent =>
      match ← nameIn? e (d - 1) "this" with
      | some (.object o c) =>
        match parent.method? method.lexeme with
        | some found => boundMethod found (.object o c)
        | none => fail method (.undefinedProperty method.lexeme)
      | _ => fail keyword (.undefinedVariable "this")
    | _ => fail keyword .superclassNotClass

/-- Fails at a closing parenthesis unless the number of arguments is right. -/
def checkArity (paren : Token) (expected got : Nat) : Exec Unit :=
  if got = expected then pure () else fail paren (.arity expected got)

/-- The class that a superclass evaluated to. -/
def asSuperclass (name : Token) (superclass : Expr) (v : Value) : Exec Class :=
  match v with
  | .klass c => pure c
  | _ =>
    match superclass with
    | .variable _ other => fail other .superclassNotClass
    | _ => fail name .superclassNotClass

/-- The methods of a class by name, closed over a frame; of two with one name the later counts. -/
def methodTable (e : FrameRef) (methods : List FunctionDecl) : Assoc String Closure :=
  Assoc.setAll [] (methods.map fun d => (d.name.lexeme, ⟨d, e, d.isInit⟩))

/-- Makes a class in a frame: its methods see the superclass, if there is one, and the name of the class. -/
def makeClass (e : FrameRef) (name : Token) (parent : Option Class) (methods : List FunctionDecl) : Exec Unit := do
  define e name.lexeme .nil
  let inner ← match parent with
    | some c => newFrame e [("super", .klass c)]
    | none => pure e
  let t ← newTag
  define e name.lexeme (.klass (.mk t name.lexeme parent (methodTable inner methods)))

/-- The frame of a call: the parameters with their arguments. -/
def callFrame (c : Closure) (arguments : List Value) : Exec FrameRef :=
  newFrame c.frame (Assoc.setAll [] ((c.declaration.params.map Token.lexeme).zip arguments))

/-- What a call gives: an initializer its instance, another function what it returned. -/
def callResult (c : Closure) (flow : Flow) : Exec Value :=
  if c.isInitializer then do
    let this ← nameIn? c.frame 0 "this"
    pure (this.getD .nil)
  else pure flow.result

/-! ## the recursion -/

mutual

/-- Evaluates an expression in a frame. -/
def eval : Nat → Setting → FrameRef → Expr → Exec Value
  | 0, _, _, _ => outOfFuel
  | n + 1, σ, e, expr =>
    match expr with
    | .literal l => pure (.ofLiteral l)
    | .group inner => eval n σ e inner
    | .unary operator right => do
      let v ← eval n σ e right
      ofResult operator (applyUnary operator.kind v)
    | .binary left operator right => do
      let v ← eval n σ e left
      let w ← eval n σ e right
      ofResult operator (applyBinary operator.kind v w)
    | .logical left operator right => do
      let v ← eval n σ e left
      if decides operator.kind v then pure v else eval n σ e right
    | .variable label name => readName (σ.distance? label) e name
    | .assign label name value => do
      let v ← eval n σ e value
      writeName (σ.distance? label) e name v
      pure v
    | .call callee paren arguments => do
      let f ← eval n σ e callee
      let vs ← evalAll n σ e arguments
      call n σ f vs paren
    | .get object name => do
      match ← eval n σ e object with
      | .object o c => getProperty o c name
      | _ => fail name .noProperties
    | .set object name value => do
      match ← eval n σ e object with
      | .object o _ => do
        let v ← eval n σ e value
        setField o name.lexeme v
        pure v
      | _ => fail name .noFields
    | .this label keyword => readName (σ.distance? label) e keyword
    | .super label keyword method => getSuper (σ.distance? label) e keyword method

/-- Evaluates expressions from left to right. -/
def evalAll : Nat → Setting → FrameRef → List Expr → Exec (List Value)
  | 0, _, _, _ => outOfFuel
  | _ + 1, _, _, [] => pure []
  | n + 1, σ, e, expr :: rest => do
    let v ← eval n σ e expr
    let vs ← evalAll n σ e rest
    pure (v :: vs)

/-- Calls a value at a closing parenthesis. -/
def call : Nat → Setting → Value → List Value → Token → Exec Value
  | 0, _, _, _, _ => outOfFuel
  | n + 1, σ, callee, arguments, paren =>
    match callee with
    | .function _ c => do
      checkArity paren c.arity arguments.length
      invoke n σ c arguments
    | .builtin _ b => do
      checkArity paren b.arity arguments.length
      runBuiltin σ.hosts b arguments paren
    | .klass c => do
      checkArity paren c.arity arguments.length
      let this ← newObject c
      match c.method? FunctionDecl.initName with
      | some initializer => do
        let bound ← bindThis initializer this
        let _ ← invoke n σ bound arguments
        pure this
      | none => pure this
    | _ => fail paren .notCallable

/-- Runs the body of a function in a new frame. -/
def invoke : Nat → Setting → Closure → List Value → Exec Value
  | 0, _, _, _ => outOfFuel
  | n + 1, σ, c, arguments => do
    let e ← callFrame c arguments
    let flow ← execAll n σ e c.declaration.body
    callResult c flow

/-- Runs a statement in a frame. -/
def exec : Nat → Setting → FrameRef → Stmt → Exec Flow
  | 0, _, _, _ => outOfFuel
  | n + 1, σ, e, stmt =>
    match stmt with
    | .expr expr => do
      let _ ← eval n σ e expr
      pure .normal
    | .print keyword expr => do
      let v ← eval n σ e expr
      print keyword v
      pure .normal
    | .varDecl name none => do
      define e name.lexeme .nil
      pure .normal
    | .varDecl name (some expr) => do
      let v ← eval n σ e expr
      define e name.lexeme v
      pure .normal
    | .block body => do
      let inner ← newFrame e []
      execAll n σ inner body
    | .ifThen condition thenBranch => do
      let v ← eval n σ e condition
      if v.truthy then exec n σ e thenBranch else pure .normal
    | .ifElse condition thenBranch elseBranch => do
      let v ← eval n σ e condition
      if v.truthy then exec n σ e thenBranch else exec n σ e elseBranch
    | .loop condition body increment => loop n σ e condition body increment
    | .funDecl d => do
      let t ← newTag
      define e d.name.lexeme (.function t ⟨d, e, false⟩)
      pure .normal
    | .returnFrom _ none => pure (.returned .nil)
    | .returnFrom _ (some expr) => do
      let v ← eval n σ e expr
      pure (.returned v)
    | .classDecl name none methods => do
      makeClass e name none methods
      pure .normal
    | .classDecl name (some superclass) methods => do
      let v ← eval n σ e superclass
      let parent ← asSuperclass name superclass v
      makeClass e name (some parent) methods
      pure .normal
    | .breakLoop _ => pure .broken
    | .continueLoop _ => pure .continued

/-- Runs statements until one does not end normally. -/
def execAll : Nat → Setting → FrameRef → List Stmt → Exec Flow
  | 0, _, _, _ => outOfFuel
  | _ + 1, _, _, [] => pure .normal
  | n + 1, σ, e, stmt :: rest => do
    match ← exec n σ e stmt with
    | .normal => execAll n σ e rest
    | flow => pure flow

/-- Runs a loop from the test of its condition on. -/
def loop : Nat → Setting → FrameRef → Expr → Stmt → Option Expr → Exec Flow
  | 0, _, _, _, _, _ => outOfFuel
  | n + 1, σ, e, condition, body, increment => do
    let v ← eval n σ e condition
    if v.truthy then
      match ← exec n σ e body with
      | .broken => pure .normal
      | .returned w => pure (.returned w)
      | _ =>
        match increment with
        | some expr => do
          let _ ← eval n σ e expr
          loop n σ e condition body increment
        | none => loop n σ e condition body increment
    else pure .normal

end

/-- Runs the statements of a program among the globals; how each of them ends does not matter. -/
def program (n : Nat) (σ : Setting) : List Stmt → Exec Unit
  | [] => pure ()
  | stmt :: rest => do
    let _ ← exec n σ Heap.globals stmt
    program n σ rest

end Exec

end ScriptLang
