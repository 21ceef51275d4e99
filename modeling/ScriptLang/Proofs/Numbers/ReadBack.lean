import Mathlib.Data.Nat.Cast.Field
import ScriptLang.Proofs.Numbers.Patterns
import ScriptLang.Proofs.Numbers.Rounding
import ScriptLang.Number

/-!
# Digits that read back

* `expansion_bits` — all digits of a magnitude read as it;
* `search_bits`, `Number.bits_digits` — so do the digits that the search gives, whichever grid they come from;
* `whole?_eq_some` — a whole number that a magnitude is has the value of that magnitude.

The search is not followed to its end: every candidate was read back before it is taken, and all digits are taken when
no candidate reads back.
-/

namespace ScriptLang.Decimal

/-! ## the values of digits -/

/-- A fraction of whole numbers has a value that is a magnitude. -/
theorem nearest_of_value {num den bits : Nat} {v : ℚ} (hden : den ≠ 0) (hbits : bits < infinityBits)
    (h : (num / den : ℚ) = v) (hv : v = magnitudeValue bits) : nearest num den = bits :=
  nearest_of_exact hden hbits (h.trans hv)

section Digits

variable {bits : Nat} (hbits : bits < infinityBits)

/-- The value of digits. -/
def Digits.value (d : Digits) : ℚ := d.digits * 10 ^ d.exponent

include hbits in
/-- Digits with the value of a magnitude read as it. -/
theorem Digits.bits_of_value {d : Digits} (h : d.value = magnitudeValue bits) : d.bits = bits := by
  obtain ⟨n, e⟩ := d
  unfold Digits.value at h
  unfold Digits.bits
  dsimp only at h ⊢
  split
  · rename_i he
    obtain ⟨k, rfl⟩ := Int.eq_ofNat_of_zero_le he
    refine nearest_of_value one_ne_zero hbits ?_ h
    simp only [Int.toNat_natCast, Nat.pow_eq, Nat.cast_mul, Nat.cast_pow, Nat.cast_ofNat, zpow_natCast, Nat.cast_one,
      div_one]
  · rename_i he
    obtain ⟨k, hk⟩ := Int.eq_ofNat_of_zero_le (a := -e) (by omega)
    obtain rfl : e = -(k : Int) := by omega
    refine nearest_of_value (Nat.pow_pos (by decide)).ne' hbits ?_ h
    simp only [neg_neg, Int.toNat_natCast, Nat.pow_eq, Nat.cast_pow, Nat.cast_ofNat, zpow_neg, zpow_natCast]
    rw [div_eq_mul_inv]

/-- A half is five tenths, so a binary fraction has as many decimal places as binary ones. -/
theorem value_expansion (m : Nat) (q : Int) : (expansion m q).value = m * 2 ^ q := by
  unfold expansion Digits.value
  split
  · rename_i hq
    obtain ⟨k, rfl⟩ := Int.eq_ofNat_of_zero_le hq
    simp only [Int.toNat_natCast, Nat.pow_eq, Nat.cast_mul, Nat.cast_pow, Nat.cast_ofNat, zpow_natCast, zpow_zero,
      mul_one]
  · rename_i hq
    obtain ⟨k, hk⟩ := Int.eq_ofNat_of_zero_le (a := -q) (by omega)
    obtain rfl : q = -(k : Int) := by omega
    simp only [neg_neg, Int.toNat_natCast, Nat.pow_eq, Nat.cast_mul, Nat.cast_pow, Nat.cast_ofNat, zpow_neg,
      zpow_natCast]
    rw [show (10 : ℚ) = 5 * 2 by norm_num, mul_pow]
    field_simp

include hbits in
theorem expansion_bits : (expansion (magnitude bits).1 (magnitude bits).2).bits = bits :=
  Digits.bits_of_value hbits (value_expansion ..)

/-- A neighbour is taken only if it reads back. -/
theorem neighbour?_bits {tie : Tie} {m : Nat} {q p : Int} {d : Digits} (h : neighbour? tie bits m q p = some d) :
    d.bits = bits := by
  unfold neighbour? at h
  dsimp only at h
  split at h
  · rename_i hbelow habove
    cases h
    rw [apply_ite Digits.bits, of_decide_eq_true habove, of_decide_eq_true hbelow, ite_self]
  · rename_i hbelow _
    cases h
    exact of_decide_eq_true hbelow
  · rename_i _ habove
    cases h
    exact of_decide_eq_true habove
  · cases h

/-- The search ends with digits that read back. -/
theorem search_bits (tie : Tie) {m : Nat} {q : Int} (h : (expansion m q).bits = bits) (n : Nat) (p : Int) :
    (search tie bits m q n p).bits = bits := by
  induction n generalizing p with
  | zero => exact h
  | succ n ih =>
    unfold search
    split
    · rename_i d hd
      exact neighbour?_bits hd
    · exact ih (p - 1)

include hbits in
theorem shortest_bits (tie : Tie) : (shortest tie bits).bits = bits :=
  search_bits tie (expansion_bits hbits) ..

/-! ## whole numbers -/

theorem whole?_eq_some {m n : Nat} {q : Int} (h : whole? m q = some n) : (n : ℚ) = m * 2 ^ q := by
  unfold whole? at h
  split at h
  · rename_i hq
    obtain ⟨k, rfl⟩ := Int.eq_ofNat_of_zero_le hq
    cases h
    simp only [Int.toNat_natCast, Nat.pow_eq, Nat.cast_mul, Nat.cast_pow, Nat.cast_ofNat, zpow_natCast]
  · rename_i hq
    obtain ⟨k, hk⟩ := Int.eq_ofNat_of_zero_le (a := -q) (by omega)
    obtain rfl : q = -(k : Int) := by omega
    rw [neg_neg, Int.toNat_natCast, Nat.pow_eq] at h
    dsimp only at h
    split at h
    · rename_i hmod
      cases h
      have hdvd : 2 ^ k ∣ m := Nat.dvd_of_mod_eq_zero hmod
      rw [Nat.cast_div hdvd (by positivity), zpow_neg, zpow_natCast, Nat.cast_pow, Nat.cast_ofNat, div_eq_mul_inv]
    · cases h

end Digits

end ScriptLang.Decimal

namespace ScriptLang.Number

open Decimal

variable {bits : Nat}

/-- The digits of a number read as it. -/
theorem bits_digits (hbits : bits < infinityBits) (tie : Tie) :
    (digits tie (ofPattern bits)).bits = bits := by
  have hrest : bits % Nat.pow 2 63 = bits :=
    Nat.mod_eq_of_lt (Nat.lt_trans hbits (by decide))
  unfold digits
  rw [toBits_ofPattern hbits.le, hrest]
  dsimp only
  split
  · rename_i hzero
    rw [hzero]
    decide
  · exact shortest_bits hbits tie

end ScriptLang.Number
