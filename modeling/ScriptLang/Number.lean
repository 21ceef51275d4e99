import ScriptLang.Decimal.Layout

/-!
# Numbers and their three texts

Numbers are 64-bit floating-point numbers.  They have one text for program output (`display`), one for literals in
token lists and syntax trees (`literal`) and one for JSON (`json`).  The first two write whole numbers below a
bound exactly and everything else with the fewest digits that read back, never with an exponent.
-/

namespace ScriptLang.Number

open Decimal

/-- What a text of numbers decides for itself. -/
structure Format where
  /-- Whole numbers below this bound are written exactly. -/
  wholeBelow : Nat
  /-- What follows an exactly written whole number. -/
  wholeMark : List Char

/-- Program output shows whole numbers below `10 ^ 15` without a fraction. -/
def outputFormat : Format := ⟨Nat.pow 10 15, []⟩

/-- Literals show whole numbers below `2 ^ 63` with one zero after the point. -/
def literalFormat : Format := ⟨Nat.pow 2 63, ['.', '0']⟩

/-- The fewest digits that read back as the magnitude of the number, zero included. -/
def digits (tie : Tie) (x : Float) : Digits :=
  let bits := x.toBits.toNat % Nat.pow 2 63
  if bits = 0 then ⟨0, 0⟩ else shortest tie bits

/-- The whole number below the format's bound that the magnitude is, if it is one. -/
def Format.whole? (f : Format) (mantissa : Nat) (exponent : Int) : Option Nat :=
  (Decimal.whole? mantissa exponent).filter (· < f.wholeBelow)

/-- The text of a number.  A whole zero has no sign. -/
def Format.text (f : Format) (x : Float) : List Char :=
  match Binary64.ofFloat x with
  | .nan => "NaN".toList
  | .infinite negative => signed negative "inf".toList
  | .finite negative m q =>
    match f.whole? m q with
    | some n => signed (negative && n != 0) (wholeText n) ++ f.wholeMark
    | none => signed negative (positional 0 (digits .up x))

/-- The text of a number in program output. -/
def display (x : Float) : String := String.ofList (outputFormat.text x)

/-- The text of a number literal. -/
def literal (x : Float) : String := String.ofList (literalFormat.text x)

/-- The numbers that JSON text shows without an exponent: zero, and from `10 ^ -5` up to `10 ^ 16`. -/
def jsonPositional (d : Digits) : Bool :=
  let leading : Int := d.exponent + ((wholeText d.digits).length : Int) - 1
  d.digits == 0 || (-5 ≤ leading && leading < 16)

/-- The text of a number in JSON, which has no infinities. -/
def json (x : Float) : String :=
  match Binary64.ofFloat x with
  | .nan | .infinite _ => "null"
  | .finite negative _ _ =>
    let d := digits .even x
    String.ofList (signed negative (if jsonPositional d then positional 1 d else scientific d))

/-- The value of a literal made of digits, and of more digits after a point. -/
def ofDigits (whole fraction : List Char) : Float :=
  toFloat ((whole ++ fraction).foldl (fun n c => 10 * n + (c.toNat - 48)) 0) fraction.length

end ScriptLang.Number
