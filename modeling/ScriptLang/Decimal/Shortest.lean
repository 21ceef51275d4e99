import ScriptLang.Decimal.Binary64

/-!
# The fewest digits that read back

For a positive number `m · 2 ^ q` the search goes through the grids of multiples of `10 ^ p`, coarsest first, and
looks at the two neighbours of the number on each grid.  The first grid with a neighbour that `nearest` takes back
to the number wins; of two such neighbours the nearer one, and a `Tie` decides between two that are equally near.
-/

namespace ScriptLang.Decimal

/-- The number `digits · 10 ^ exponent`. -/
structure Digits where
  digits : Nat
  exponent : Int
deriving DecidableEq, Repr

/-- Which of two equally near candidates is taken. -/
inductive Tie
  | up
  | even
deriving DecidableEq, Repr

/-- The pattern that the digits read as. -/
def Digits.bits (d : Digits) : Nat :=
  if 0 ≤ d.exponent then nearest (d.digits * Nat.pow 10 d.exponent.toNat) 1
  else nearest d.digits (Nat.pow 10 (-d.exponent).toNat)

/-- The number `m · 2 ^ q` divided by `10 ^ p`, as a fraction. -/
def onGrid (m : Nat) (q p : Int) : Nat × Nat :=
  (m * Nat.pow 2 q.toNat * Nat.pow 10 (-p).toNat, Nat.pow 2 (-q).toNat * Nat.pow 10 p.toNat)

/-- The neighbour of `m · 2 ^ q` on the grid of `10 ^ p` that reads back, if there is one. -/
def neighbour? (tie : Tie) (bits m : Nat) (q p : Int) : Option Digits :=
  let (num, den) := onGrid m q p
  let below : Digits := ⟨num / den, p⟩
  let above : Digits := ⟨num / den + 1, p⟩
  let r := num % den
  let upper :=
    if 2 * r < den then false
    else if den < 2 * r then true
    else match tie with
      | .up => true
      | .even => below.digits % 2 = 1
  match decide (below.bits = bits), decide (above.bits = bits) with
  | true, true => some (if upper then above else below)
  | true, false => some below
  | false, true => some above
  | false, false => none

/-- All digits of `m · 2 ^ q`. -/
def expansion (m : Nat) (q : Int) : Digits :=
  if 0 ≤ q then ⟨m * Nat.pow 2 q.toNat, 0⟩ else ⟨m * Nat.pow 5 (-q).toNat, q⟩

/-- Tries the grids `10 ^ p`, `10 ^ (p - 1)`, …, so many of them, and gives all digits after that. -/
def search (tie : Tie) (bits m : Nat) (q : Int) : Nat → Int → Digits
  | 0, _ => expansion m q
  | n + 1, p =>
    match neighbour? tie bits m q p with
    | some d => d
    | none => search tie bits m q n (p - 1)

/-- A power of ten above every number with `2 ^ e` as its leading bit, and less than a thousand times too large. -/
def decimalBound (e : Int) : Int := (e + 1) * 30103 / 100000 + 1

/-- The shortest decimal that reads back as the pattern, which is that of a finite positive number. -/
def shortest (tie : Tie) (bits : Nat) : Digits :=
  let (m, q) := magnitude bits
  search tie bits m q 24 (decimalBound ((m.log2 : Int) + q))

end ScriptLang.Decimal
