import ScriptLang.Diagnostic
import ScriptLang.Value

/-!
# Operators on values

The operators of the language as functions on values.  Equality takes any two values, `+` two numbers or two strings,
every other operator two numbers.
-/

namespace ScriptLang

/-- The value of an operator before an operand. -/
def applyUnary (operator : Kind) (v : Value) : Except RuntimeFault Value :=
  match operator with
  | .mark .minus =>
    match v with
    | .number x => .ok (.number (-x))
    | _ => .error .operandNotNumber
  | .mark .bang => .ok (.bool !v.truthy)
  | _ => .error .invalidUnary

/-- The value of a sum, or of two strings put together. -/
def applyPlus : Value → Value → Except RuntimeFault Value
  | .number x, .number y => .ok (.number (x + y))
  | .string s, .string t => .ok (.string (s ++ t))
  | _, _ => .error .operandsNotAddable

/-- The value of an operator between two numbers. -/
def applyArithmetic (operator : Kind) (x y : Float) : Except RuntimeFault Value :=
  match operator with
  | .mark .minus => .ok (.number (x - y))
  | .mark .star => .ok (.number (x * y))
  | .mark .slash => .ok (.number (x / y))
  | .mark .greater => .ok (.bool (y < x))
  | .mark .greaterEqual => .ok (.bool (y ≤ x))
  | .mark .less => .ok (.bool (x < y))
  | .mark .lessEqual => .ok (.bool (x ≤ y))
  | _ => .error .invalidBinary

/-- The value of an operator between two operands. -/
def applyBinary (operator : Kind) (v w : Value) : Except RuntimeFault Value :=
  match operator with
  | .mark .equalEqual => .ok (.bool (v.equals w))
  | .mark .bangEqual => .ok (.bool !v.equals w)
  | .mark .plus => applyPlus v w
  | _ =>
    match v, w with
    | .number x, .number y => applyArithmetic operator x y
    | _, _ => .error .operandsNotNumbers

/-- Whether the left operand of a logical operator decides its value: for `or` if it counts as true, for any other
operator if it does not. -/
def decides (operator : Kind) (v : Value) : Bool :=
  if operator = .keyword .kwOr then v.truthy else !v.truthy

end ScriptLang
