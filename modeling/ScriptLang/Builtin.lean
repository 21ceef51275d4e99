import ScriptLang.Console
import ScriptLang.Value

/-!
# Built-in functions

Every program starts with three: `clock`, `read` and `wait`.  More can be added as `Host` functions.  A failure is a
message, which becomes a runtime fault where the function was called.
-/

namespace ScriptLang

/-- A function of the program around the interpreter. -/
abbrev Host : Type := List Value → Except String Value

namespace Builtin

/-- The built-in functions of every program. -/
def standard : List Builtin := [⟨"clock", 0, .clock⟩, ⟨"read", 0, .read⟩, ⟨"wait", 1, .wait⟩]

/-- The value of a reading of the clock. -/
def timeValue : Except String Float → Except String Value
  | .ok seconds => .ok (.number seconds)
  | .error e => .error ("Clock error: " ++ e)

/-- A text without the line ends behind it. -/
def trimLineEnd (s : List Char) : List Char :=
  (s.reverse.dropWhile fun c => c = '\n' || c = '\r').reverse

/-- The value of a line of input; nothing stands for the end of the input. -/
def lineValue (line : List UInt8) : Except String Value :=
  if line.isEmpty then .ok .nil
  else
    match Text.decode line with
    | .ok s => .ok (.string (String.ofList (trimLineEnd s.toList)))
    | .error _ => .error "Read error: stream did not contain valid UTF-8"

/-- The seconds to wait, from the arguments of `wait`: a number that is finite and fits into 64 bits.  A negative time
is none. -/
def waitTime : List Value → Except String Float
  | [] => .error "wait() expects a number of seconds."
  | .number x :: _ =>
    if !x.isFinite then .error "wait() duration must be finite."
    else if x < 0 then .ok 0
    else if x < 18446744073709551616 then .ok x
    else .error "wait() duration is out of range."
  | v :: _ => .error ("wait() expects a number of seconds, got " ++ v.typeName ++ ".")

end Builtin

/-- Carries out what a built-in function does. -/
def Action.run (hosts : Array Host) (arguments : List Value) (c : Console) (action : Action) :
    Except String Value × Console :=
  match action with
  | .clock => (Builtin.timeValue c.readClock.1, c.readClock.2)
  | .read => (Builtin.lineValue c.readLine.1, c.readLine.2)
  | .wait =>
    match Builtin.waitTime arguments with
    | .ok seconds => (.ok .nil, c.wait seconds)
    | .error message => (.error message, c)
  | .host position =>
    match hosts[position]? with
    | some f => (f arguments, c)
    | none => (.ok .nil, c)

end ScriptLang
