import ScriptLang.Decimal.Shortest

/-!
# Writing digits

`positional` writes a decimal without an exponent, `scientific` with one point after the first digit.  Both leave
the choice of digits to their caller.
-/

namespace ScriptLang.Decimal

/-- The decimal digits of a whole number. -/
def wholeText (n : Nat) : List Char := Nat.toDigits 10 n

/-- So many zeros. -/
def zeros (n : Nat) : List Char := List.replicate n '0'

/-- Writes `digits · 10 ^ exponent` without an exponent, and at least so many places after the point.  The point
itself is left out when no place follows it. -/
def positional (places : Nat) (d : Digits) : List Char :=
  if 0 ≤ d.exponent then
    wholeText d.digits ++ (if d.digits = 0 then [] else zeros d.exponent.toNat) ++
      (if places = 0 then [] else '.' :: zeros places)
  else
    let n := (-d.exponent).toNat
    let all := zeros (n + 1 - (wholeText d.digits).length) ++ wholeText d.digits
    all.take (all.length - n) ++ '.' :: all.drop (all.length - n) ++ zeros (places - n)

/-- Writes `digits · 10 ^ exponent` with one digit before the point and an exponent with its sign; the point is
left out when no digit follows it. -/
def scientific (d : Digits) : List Char :=
  let all := wholeText d.digits
  let e : Int := d.exponent + ((all.length - 1 : Nat) : Int)
  all.take 1 ++ (if all.length ≤ 1 then [] else '.' :: all.drop 1) ++
    'e' :: (if 0 ≤ e then '+' else '-') :: wholeText e.natAbs

/-- A minus sign where one is wanted. -/
def signed (negative : Bool) (text : List Char) : List Char := if negative then '-' :: text else text

end ScriptLang.Decimal
