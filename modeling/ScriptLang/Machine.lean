import ScriptLang.Builtin
import ScriptLang.Frame.Access

/-!
# The state of a run

* `Heap` — the scope frames, the fields of objects and the next unused tag;
* `Machine` — the heap and the console;
* `Exec` — a computation on machines.  It ends with a value, with a fault, or for want of fuel; the first two leave a
  machine behind.

The frame at position zero holds the globals.
-/

namespace ScriptLang

/-- What changes while a program runs. -/
structure Heap where
  frames : Frames Value
  objects : Array (Assoc String Value)
  nextTag : Tag

namespace Heap

/-- The frame of the globals. -/
def globals : FrameRef := 0

/-- One empty frame for the globals. -/
def initial : Heap := ⟨#[⟨[], none⟩], #[], 0⟩

/-- The fields of an object. -/
def fields (h : Heap) (o : ObjectRef) : Assoc String Value := (h.objects[o]?).getD []

/-- Adds a frame with bindings. -/
def addFrame (h : Heap) (enclosing : FrameRef) (bindings : Assoc String Value) : Heap :=
  { h with frames := h.frames.push ⟨bindings, some enclosing⟩ }

/-- Binds a name in a frame. -/
def define (h : Heap) (e : FrameRef) (name : String) (v : Value) : Heap :=
  { h with frames := h.frames.define e name v }

/-- Adds an object without fields. -/
def addObject (h : Heap) : Heap := { h with objects := h.objects.push [] }

/-- Writes a field of an object. -/
def setField (h : Heap) (o : ObjectRef) (name : String) (v : Value) : Heap :=
  { h with objects := h.objects.modify o fun fields => Assoc.set fields name v }

end Heap

/-- The state of a run. -/
structure Machine where
  heap : Heap
  console : Console

/-- Why a run stops before its end. -/
inductive Fault
  | runtime (report : Report RuntimeFault)
  | output (cause : OutputFault)

/-- The diagnostic of a fault. -/
def Fault.toDiagnostic : Fault → Diagnostic
  | runtime r => .runtime r.anchor r.cause
  | output cause => .output cause

/-- How a computation ends. -/
inductive Ending (α : Type)
  | done (value : α) (machine : Machine)
  | failed (fault : Fault) (machine : Machine)
  | outOfFuel

/-- A computation on machines. -/
def Exec (α : Type) : Type := Machine → Ending α

namespace Exec

variable {α β : Type}

/-- Ends with a value and changes nothing. -/
@[inline] def value (a : α) : Exec α := fun m => .done a m

/-- One computation, and then one that may depend on its value. -/
@[inline] def andThen (x : Exec α) (f : α → Exec β) : Exec β := fun m =>
  match x m with
  | .done a next => f a next
  | .failed fault next => .failed fault next
  | .outOfFuel => .outOfFuel

@[always_inline] instance : Monad Exec where
  pure := value
  bind := andThen

theorem andThen_value (x : Exec α) : andThen x value = x := by
  funext m
  unfold andThen value
  cases x m <;> rfl

theorem andThen_assoc {γ : Type} (x : Exec α) (f : α → Exec β) (g : β → Exec γ) :
    andThen (andThen x f) g = andThen x fun a => andThen (f a) g := by
  funext m
  unfold andThen
  cases x m <;> rfl

instance : LawfulMonad Exec := LawfulMonad.mk' Exec
  (fun x => andThen_value x)
  (fun _ _ => rfl)
  (fun x f g => andThen_assoc x f g)

/-- Stops for want of fuel. -/
def outOfFuel : Exec α := fun _ => .outOfFuel

/-- Fails at a token. -/
def fail (anchor : Token) (cause : RuntimeFault) : Exec α := fun m => .failed (.runtime ⟨anchor, cause⟩) m

/-- The value of a result, or its failure at a token. -/
def ofResult (anchor : Token) : Except RuntimeFault α → Exec α
  | .ok a => value a
  | .error cause => fail anchor cause

/-! ## names -/

/-- Reads a name: at its distance if it has one, otherwise among the globals. -/
def readName (distance : Option Nat) (e : FrameRef) (name : Token) : Exec Value := fun m =>
  let found := match distance with
    | some d => m.heap.frames.readAt e d name
    | none => m.heap.frames.read Heap.globals name
  match found with
  | .ok v => .done v m
  | .error report => .failed (.runtime report) m

/-- Writes a name that is bound: at its distance if it has one, otherwise among the globals. -/
def writeName (distance : Option Nat) (e : FrameRef) (name : Token) (v : Value) : Exec Unit := fun m =>
  let found := match distance with
    | some d => m.heap.frames.ownerAt? e d name.lexeme
    | none => m.heap.frames.owner? Heap.globals name.lexeme
  match found with
  | some o => .done () { m with heap := m.heap.define o name.lexeme v }
  | none => .failed (.runtime (.undefined name)) m

/-- Binds a name in a frame. -/
def define (e : FrameRef) (name : String) (v : Value) : Exec Unit := fun m =>
  .done () { m with heap := m.heap.define e name v }

/-- A new frame with bindings. -/
def newFrame (enclosing : FrameRef) (bindings : Assoc String Value) : Exec FrameRef := fun m =>
  .done m.heap.frames.size { m with heap := m.heap.addFrame enclosing bindings }

/-- The value of a name in a frame and nowhere around it. -/
def nameIn? (e : FrameRef) (distance : Nat) (name : String) : Exec (Option Value) := fun m =>
  .done (m.heap.frames.findAt? e distance name) m

/-! ## objects -/

/-- A tag that nothing has. -/
def newTag : Exec Tag := fun m =>
  .done m.heap.nextTag { m with heap := { m.heap with nextTag := m.heap.nextTag + 1 } }

/-- A new object of a class. -/
def newObject (c : Class) : Exec Value := fun m =>
  .done (.object m.heap.objects.size c) { m with heap := m.heap.addObject }

/-- The value of a field. -/
def field? (o : ObjectRef) (name : String) : Exec (Option Value) := fun m =>
  .done (Assoc.get? (m.heap.fields o) name) m

/-- Writes a field. -/
def setField (o : ObjectRef) (name : String) (v : Value) : Exec Unit := fun m =>
  .done () { m with heap := m.heap.setField o name v }

/-- A method with a frame of its own in which `this` is an object. -/
def bindThis (method : Closure) (this : Value) : Exec Closure := do
  let e ← newFrame method.frame [("this", this)]
  pure { method with frame := e }

/-- A method of an object as a value. -/
def boundMethod (method : Closure) (this : Value) : Exec Value := do
  let c ← bindThis method this
  let t ← newTag
  pure (.function t c)

/-! ## the console -/

/-- Writes a text to the output. -/
def write (s : String) : Exec Unit := fun m =>
  let bytes := s.toUTF8
  if m.console.sink.fits bytes.size then
    .done () { m with console := { m.console with sink := m.console.sink.write bytes } }
  else .failed (.output .limitReached) { m with console := { m.console with sink := m.console.sink.write bytes } }

/-- Hands on what the output holds. -/
def flush : Exec Unit := fun m =>
  if m.console.sink.flushFails then .failed (.output .flushFailed) m else .done () m

/-- Runs a built-in function that was called at a token. -/
def runBuiltin (hosts : Array Host) (b : Builtin) (arguments : List Value) (paren : Token) : Exec Value := fun m =>
  match b.action.run hosts arguments m.console with
  | (.ok v, console) => .done v { m with console }
  | (.error message, console) => .failed (.runtime ⟨paren, .builtin message⟩) { m with console }

end Exec

end ScriptLang
