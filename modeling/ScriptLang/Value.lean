import ScriptLang.Frame
import ScriptLang.Text.Quoted
import ScriptLang.Tree

/-!
# Values

Functions, classes and built-in functions do not change once they are made, so a value carries them whole; a tag tells
apart two that were made at different times.  What does change is held elsewhere and named by its position: scope
frames, and the fields of objects.
-/

namespace ScriptLang

/-- Tells apart functions, classes and built-in functions that were made at different times. -/
abbrev Tag : Type := Nat

/-- The position of the fields of an object. -/
abbrev ObjectRef : Type := Nat

/-- A function with the frame it was declared in. -/
structure Closure where
  declaration : FunctionDecl
  frame : FrameRef
  /-- Whether calls give the instance instead of a returned value. -/
  isInitializer : Bool

namespace Closure

/-- The name it was declared with. -/
def name (c : Closure) : String := c.declaration.name.lexeme

/-- The number of parameters. -/
def arity (c : Closure) : Nat := c.declaration.params.length

end Closure

/-- What a built-in function does when it is called. -/
inductive Action
  | clock
  | read
  | wait
  /-- A function of the program around the interpreter, by its position. -/
  | host (position : Nat)
deriving DecidableEq, Repr

/-- A function that is not written in the language. -/
structure Builtin where
  name : String
  arity : Nat
  action : Action
deriving DecidableEq, Repr

/-- A class with its superclass and its own methods. -/
inductive Class
  | mk (tag : Tag) (name : String) (superclass : Option Class) (methods : Assoc String Closure)

namespace Class

/-- What tells the class from others. -/
def tag : Class → Tag
  | mk t _ _ _ => t

/-- The name it was declared with. -/
def name : Class → String
  | mk _ n _ _ => n

/-- The class it inherits from. -/
def superclass? : Class → Option Class
  | mk _ _ s _ => s

/-- The method with a name that is nearest on the chain of superclasses. -/
def method? (name : String) : Class → Option Closure
  | mk _ _ none methods => Assoc.get? methods name
  | mk _ _ (some parent) methods =>
    match Assoc.get? methods name with
    | some m => some m
    | none => parent.method? name

/-- The number of arguments that construct an instance. -/
def arity (c : Class) : Nat := ((c.method? FunctionDecl.initName).map Closure.arity).getD 0

end Class

/-- What expressions evaluate to. -/
inductive Value
  | number (x : Float)
  /-- A string with its escapes not decoded. -/
  | string (raw : String)
  | bool (b : Bool)
  | nil
  | function (tag : Tag) (closure : Closure)
  | builtin (tag : Tag) (builtin : Builtin)
  | klass (c : Class)
  | object (ref : ObjectRef) (c : Class)

namespace Value

/-- The value of a literal. -/
def ofLiteral : Literal → Value
  | .number x => number x
  | .string raw => string raw
  | .bool b => bool b
  | .nil => nil

/-- Whether a value counts as true: all do but `nil` and `false`. -/
def truthy : Value → Bool
  | nil => false
  | bool b => b
  | _ => true

/-- Equality of the language.  `nil` equals nothing, not even itself; numbers are compared as numbers, and what has an
identity by its identity. -/
def equals : Value → Value → Bool
  | number x, number y => x == y
  | string s, string t => s = t
  | bool a, bool b => a = b
  | function t _, function u _ => t = u
  | builtin t _, builtin u _ => t = u
  | klass c, klass d => c.tag = d.tag
  | object r _, object s _ => r = s
  | _, _ => false

/-- The name of the type of a value. -/
def typeName : Value → String
  | number _ => "number"
  | string _ => "string"
  | bool _ => "boolean"
  | nil => "nil"
  | function _ _ => "function"
  | builtin _ _ => "function"
  | klass _ => "class"
  | object _ _ => "instance"

/-- The text of a value, with the escapes of a string as they are. -/
def display : Value → String
  | number x => Number.display x
  | string raw => raw
  | bool true => "true"
  | bool false => "false"
  | nil => "nil"
  | function _ c => "<fn " ++ c.name ++ ">"
  | builtin _ b => "<native fn " ++ b.name ++ ">"
  | klass c => c.name
  | object _ c => c.name ++ " instance"

end Value

end ScriptLang
