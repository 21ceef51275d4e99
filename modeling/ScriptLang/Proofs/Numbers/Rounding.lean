import Mathlib.Algebra.Order.Field.Power
import Mathlib.Data.Rat.Defs
import Mathlib.Tactic.Linarith
import Mathlib.Tactic.FieldSimp
import Mathlib.Tactic.Positivity
import Mathlib.Tactic.Ring
import ScriptLang.Decimal.Binary64

/-!
# Rounding of fractions that need none

* `bits_eq_magnitude` — the pattern of a magnitude from its mantissa and exponent;
* `floorLog2_eq` — the exponent of the leading bit of a fraction;
* `nearest_of_exact` — a fraction that is a magnitude has the pattern of that magnitude.

Fractions are compared as rational numbers, so that a scale by a power of two is one division, whichever of its two
sides is multiplied.
-/

namespace ScriptLang.Decimal

/-! ## magnitudes -/

section Magnitude

variable (bits : Nat)

/-- The value of a magnitude. -/
def magnitudeValue : ℚ := (magnitude bits).1 * 2 ^ (magnitude bits).2

theorem leastExponent_le_magnitude : leastExponent ≤ (magnitude bits).2 := by
  unfold magnitude
  dsimp only
  split
  · exact le_rfl
  · exact le_add_of_nonneg_right (Int.natCast_nonneg _)

theorem magnitude_lt : (magnitude bits).1 < 2 ^ 53 := by
  unfold magnitude
  simp only [Nat.pow_eq, Nat.reducePow]
  split <;> dsimp only <;> omega

/-- A mantissa without a leading bit stands beside the least exponent only. -/
theorem magnitude_normal : 2 ^ 52 ≤ (magnitude bits).1 ∨ (magnitude bits).2 = leastExponent := by
  unfold magnitude
  simp only [Nat.pow_eq, Nat.reducePow]
  split
  · exact .inr rfl
  · dsimp only
    omega

/-- One formula for subnormal and normal numbers. -/
theorem bits_eq_magnitude :
    bits = ((magnitude bits).2 - leastExponent).toNat * Nat.pow 2 52 + (magnitude bits).1 := by
  unfold magnitude
  simp only [Nat.pow_eq, Nat.reducePow, leastExponent]
  split <;> dsimp only <;> omega

/-- The exponent of the last bit is found from that of the leading bit. -/
theorem magnitude_exponent (h : (magnitude bits).1 ≠ 0) :
    max ((magnitude bits).1.log2 + (magnitude bits).2 - 52) leastExponent = (magnitude bits).2 := by
  have hlog : (magnitude bits).1.log2 < 53 := (Nat.log2_lt h).2 (magnitude_lt bits)
  have hleast := leastExponent_le_magnitude bits
  rcases magnitude_normal bits with hnormal | hsubnormal
  · have : 52 ≤ (magnitude bits).1.log2 := (Nat.le_log2 h).2 hnormal
    omega
  · omega

end Magnitude

/-! ## fractions -/

section Fractions

variable {num den : Nat}

theorem scale_den_pos (num : Nat) (hden : 0 < den) (q : Int) : 0 < (scale num den q).2 := by
  unfold scale
  split
  · exact Nat.mul_pos hden (Nat.two_pow_pos _)
  · exact hden

/-- A scaled fraction is the fraction divided by the power of two. -/
theorem scale_eq (num den : Nat) (q : Int) :
    ((scale num den q).1 / (scale num den q).2 : ℚ) = num / den / 2 ^ q := by
  unfold scale
  split
  · rename_i hq
    obtain ⟨n, rfl⟩ := Int.eq_ofNat_of_zero_le hq
    simp only [Int.toNat_natCast, Nat.pow_eq, Nat.cast_mul, Nat.cast_pow, Nat.cast_ofNat, zpow_natCast]
    rw [div_div]
  · rename_i hq
    obtain ⟨n, hn⟩ := Int.eq_ofNat_of_zero_le (a := -q) (by omega)
    obtain rfl : q = -(n : Int) := by omega
    simp only [neg_neg, Int.toNat_natCast, Nat.pow_eq, Nat.cast_mul, Nat.cast_pow, Nat.cast_ofNat, zpow_neg,
      zpow_natCast, div_inv_eq_mul]
    ring

theorem cast_log2_bounds {n : Nat} (h : n ≠ 0) :
    (2 : ℚ) ^ (n.log2 : Int) ≤ n ∧ (n : ℚ) < 2 ^ ((n.log2 : Int) + 1) := by
  have hlow : 2 ^ n.log2 ≤ n := Nat.log2_self_le h
  have hhigh : n < 2 ^ (n.log2 + 1) := Nat.lt_log2_self
  constructor
  · exact_mod_cast hlow
  · exact_mod_cast hhigh

/-- The fraction lies between the power of two and the one after it. -/
def LeadingBit (k : Int) (v : ℚ) : Prop := 2 ^ k ≤ v ∧ v < 2 ^ (k + 1)

theorem LeadingBit.unique {k k' : Int} {v : ℚ} (h : LeadingBit k v) (h' : LeadingBit k' v) : k = k' := by
  have one_lt : (1 : ℚ) < 2 := by norm_num
  have hlt : k < k' + 1 := (zpow_lt_zpow_iff_right₀ one_lt).1 (lt_of_le_of_lt h.1 h'.2)
  have hgt : k' < k + 1 := (zpow_lt_zpow_iff_right₀ one_lt).1 (lt_of_le_of_lt h'.1 h.2)
  omega

/-- The guess from the two leading bits is right or one too large. -/
theorem leadingBit_floorLog2 (hnum : num ≠ 0) (hden : den ≠ 0) : LeadingBit (floorLog2 num den) (num / den) := by
  obtain ⟨hnlow, hnhigh⟩ := cast_log2_bounds hnum
  obtain ⟨hdlow, hdhigh⟩ := cast_log2_bounds hden
  have two_ne : (2 : ℚ) ≠ 0 := by norm_num
  have hdpos : (0 : ℚ) < den := by positivity
  set g : Int := (num.log2 : Int) - (den.log2 : Int) with hg
  have hhigh : (num / den : ℚ) < 2 ^ (g + 1) := by
    rw [div_lt_iff₀ hdpos]
    calc (num : ℚ) < 2 ^ ((num.log2 : Int) + 1) := hnhigh
      _ = 2 ^ (g + 1) * 2 ^ (den.log2 : Int) := by rw [← zpow_add₀ two_ne, hg]; congr 1; omega
      _ ≤ 2 ^ (g + 1) * den := by gcongr
  have hlow : (2 : ℚ) ^ (g - 1) < num / den := by
    rw [lt_div_iff₀ hdpos]
    calc (2 : ℚ) ^ (g - 1) * den < 2 ^ (g - 1) * 2 ^ ((den.log2 : Int) + 1) := by gcongr
      _ = 2 ^ (num.log2 : Int) := by rw [← zpow_add₀ two_ne, hg]; congr 1; omega
      _ ≤ num := hnlow
  have hscaled := scale_eq num den g
  have hpos : (0 : ℚ) < (scale num den g).2 := by exact_mod_cast scale_den_pos num (Nat.pos_of_ne_zero hden) g
  have hg2 : (0 : ℚ) < 2 ^ g := by positivity
  unfold floorLog2
  rw [← hg]
  dsimp only
  split
  · rename_i hle
    refine ⟨?_, hhigh⟩
    have hone : (1 : ℚ) ≤ num / den / 2 ^ g := by
      rw [← hscaled, le_div_iff₀ hpos, one_mul]
      exact_mod_cast hle
    rwa [le_div_iff₀ hg2, one_mul] at hone
  · rename_i hlt
    refine ⟨hlow.le, ?_⟩
    have hone : (num / den / 2 ^ g : ℚ) < 1 := by
      rw [← hscaled, div_lt_one hpos]
      exact_mod_cast Nat.lt_of_not_le hlt
    rwa [div_lt_one hg2, show g = g - 1 + 1 by omega] at hone

/-- The leading bit of `m · 2 ^ q` is that of `m`, moved by `q`. -/
theorem LeadingBit.of_exact {m : Nat} (q : Int) (hm : m ≠ 0) : LeadingBit (m.log2 + q) (m * 2 ^ q) := by
  obtain ⟨hlow, hhigh⟩ := cast_log2_bounds hm
  have two_ne : (2 : ℚ) ≠ 0 := by norm_num
  constructor
  · rw [zpow_add₀ two_ne]
    gcongr
  · rw [show (m.log2 + q + 1 : Int) = (m.log2 + 1) + q by omega, zpow_add₀ two_ne _ q]
    gcongr

theorem floorLog2_eq {m : Nat} {q : Int} (hnum : num ≠ 0) (hden : den ≠ 0) (hm : m ≠ 0)
    (h : (num / den : ℚ) = m * 2 ^ q) : floorLog2 num den = m.log2 + q := by
  have hleading := leadingBit_floorLog2 hnum hden
  rw [h] at hleading
  exact hleading.unique (.of_exact q hm)

/-- A quotient without remainder is not rounded. -/
theorem roundDiv_of_exact {a b m : Nat} (hb : 0 < b) (h : a = m * b) : roundDiv a b = m := by
  subst h
  unfold roundDiv
  rw [Nat.mul_div_cancel m hb, Nat.mul_mod_left, if_pos (by omega)]

/-- A fraction that is a magnitude has the pattern of that magnitude. -/
theorem nearest_of_exact {bits : Nat} (hden : den ≠ 0) (hbits : bits < infinityBits)
    (h : (num / den : ℚ) = magnitudeValue bits) : nearest num den = bits := by
  have hdpos : (0 : ℚ) < den := by positivity
  have hpow : (0 : ℚ) < 2 ^ (magnitude bits).2 := by positivity
  have hformula := bits_eq_magnitude bits
  unfold magnitudeValue at h
  unfold nearest
  split
  · rename_i hnum
    -- The fraction is zero, so the mantissa is, and then the exponent is the least one.
    have hm : (magnitude bits).1 = 0 := by
      rw [hnum, Nat.cast_zero, zero_div, eq_comm, mul_eq_zero] at h
      exact_mod_cast h.resolve_right hpow.ne'
    have hleast : (magnitude bits).2 = leastExponent := (magnitude_normal bits).resolve_left (by omega)
    rw [hm, hleast] at hformula
    simpa using hformula.symm
  · rename_i hnum
    have hm : (magnitude bits).1 ≠ 0 := by
      intro hm
      rw [hm, Nat.cast_zero, zero_mul, div_eq_zero_iff] at h
      rcases h with h | h
      · exact hnum (by exact_mod_cast h)
      · exact hden (by exact_mod_cast h)
    have hscaled := scale_eq num den (magnitude bits).2
    have hpos := scale_den_pos num (Nat.pos_of_ne_zero hden) (magnitude bits).2
    have hexact : (scale num den (magnitude bits).2).1 =
        (magnitude bits).1 * (scale num den (magnitude bits).2).2 := by
      rw [h, mul_div_cancel_right₀ _ hpow.ne', div_eq_iff (by exact_mod_cast hpos.ne')] at hscaled
      exact_mod_cast hscaled
    rw [floorLog2_eq hnum hden hm h, magnitude_exponent bits hm]
    dsimp only
    rw [roundDiv_of_exact hpos hexact, ← hformula, Nat.min_eq_left hbits.le]

end Fractions

end ScriptLang.Decimal
