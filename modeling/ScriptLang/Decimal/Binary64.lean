/-!
# Binary floating-point numbers and exact rounding

A 64-bit pattern stands for a NaN, an infinity or `± mantissa · 2 ^ exponent`.  `nearest` goes the other way: it
gives the pattern of the number nearest to a fraction, in exact arithmetic.  The magnitudes of a format follow
each other in the order of their patterns, which is why one formula serves subnormal numbers, normal numbers and
the carry into the next exponent.
-/

namespace ScriptLang.Decimal

/-- What a 64-bit pattern stands for. -/
inductive Binary64
  | nan
  | infinite (negative : Bool)
  /-- The number `± mantissa · 2 ^ exponent`. -/
  | finite (negative : Bool) (mantissa : Nat) (exponent : Int)

/-- The exponent of the last bit of the smallest numbers. -/
def leastExponent : Int := -1074

/-- The pattern of positive infinity, which is the pattern after the largest finite magnitude. -/
def infinityBits : Nat := 2047 * Nat.pow 2 52

/-- The finite magnitude with a pattern below `infinityBits`: its mantissa and exponent. -/
def magnitude (bits : Nat) : Nat × Int :=
  let e := bits / Nat.pow 2 52
  let f := bits % Nat.pow 2 52
  if e = 0 then (f, leastExponent) else (f + Nat.pow 2 52, leastExponent + ((e - 1 : Nat) : Int))

/-- Reads a pattern: sign bit, eleven exponent bits, fifty-two mantissa bits. -/
def Binary64.ofBits (bits : UInt64) : Binary64 :=
  let negative := Nat.pow 2 63 ≤ bits.toNat
  let rest := bits.toNat % Nat.pow 2 63
  if rest < infinityBits then .finite negative (magnitude rest).1 (magnitude rest).2
  else if rest = infinityBits then .infinite negative
  else .nan

/-- What a number stands for. -/
def Binary64.ofFloat (x : Float) : Binary64 := ofBits x.toBits

/-! ## rounding a fraction -/

/-- The quotient rounded to the nearest whole number, a half going to the even one. -/
def roundDiv (num den : Nat) : Nat :=
  let q := num / den
  let r := num % den
  if 2 * r < den then q else if den < 2 * r then q + 1 else q + q % 2

/-- The fraction `num / den` divided by `2 ^ q`. -/
def scale (num den : Nat) (q : Int) : Nat × Nat :=
  if 0 ≤ q then (num, den * Nat.pow 2 q.toNat) else (num * Nat.pow 2 (-q).toNat, den)

/-- The largest `e` with `2 ^ e ≤ num / den`, for a positive fraction. -/
def floorLog2 (num den : Nat) : Int :=
  let guess : Int := (num.log2 : Int) - (den.log2 : Int)
  let (a, b) := scale num den guess
  if b ≤ a then guess else guess - 1

/-- The pattern of the number nearest to `num / den`, ties going to the even mantissa and what is
too large to infinity. -/
def nearest (num den : Nat) : Nat :=
  if num = 0 then 0
  else
    let q := max (floorLog2 num den - 52) leastExponent
    let (a, b) := scale num den q
    min ((q - leastExponent).toNat * Nat.pow 2 52 + roundDiv a b) infinityBits

/-- The number nearest to `digits / 10 ^ places`. -/
def toFloat (digits places : Nat) : Float :=
  Float.ofBits (UInt64.ofNat (nearest digits (Nat.pow 10 places)))

/-- The whole number that `mantissa · 2 ^ exponent` is, if it is one. -/
def whole? (mantissa : Nat) (exponent : Int) : Option Nat :=
  if 0 ≤ exponent then some (mantissa * Nat.pow 2 exponent.toNat)
  else
    let unit := Nat.pow 2 (-exponent).toNat
    if mantissa % unit = 0 then some (mantissa / unit) else none

end ScriptLang.Decimal
