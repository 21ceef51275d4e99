/-!
# Ranges of characters

Properties of characters are tables of ranges.  The ranges of a table stand in order and apart from each other, so the
search for a number ends at the first range that starts behind it.
-/

namespace ScriptLang.Text

/-- Ranges of numbers; both ends belong to a range. -/
abbrev Ranges : Type := List (Nat × Nat)

namespace Ranges

/-- Whether a number lies in one of the ranges, which stand in order. -/
def has : Ranges → Nat → Bool
  | [], _ => false
  | r :: rs, n => if n < r.1 then false else n ≤ r.2 || has rs n

end Ranges

end ScriptLang.Text
