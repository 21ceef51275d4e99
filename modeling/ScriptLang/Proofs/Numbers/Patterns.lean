import ScriptLang.Decimal.Binary64

/-!
# Numbers and their patterns

* `ofPattern bits` — the number with a pattern;
* `toBits_ofPattern` — its pattern is the one that it was made from, up to infinity;
* `ofFloat_ofPattern`, `lt_of_isFinite` — below infinity it is finite and stands for its magnitude, and only there.

A pattern is taken apart into sign, exponent and mantissa and put together again.  The arithmetic is about the fields
as natural numbers, and only here: the modules after this one know patterns as natural numbers below `infinityBits`.
-/

namespace ScriptLang.Decimal

open Float.Model (Format)
open Float.Model.UnpackedFloat

/-! ## the fields of a pattern -/

section Fields

variable (b : BitVec Format.binary64.numBits)

theorem toNat_unpackMantissa : (unpackMantissa b).toNat = b.toNat % Nat.pow 2 52 := by
  simp [unpackMantissa]

theorem toNat_unpackExponent : (unpackExponent b).toNat = b.toNat / Nat.pow 2 52 % Nat.pow 2 11 := by
  simp [unpackExponent, Nat.shiftRight_eq_div_pow]

theorem toNat_unpackSign : (unpackSign b).toNat = b.toNat / Nat.pow 2 63 := by
  have h : b.toNat < 2 ^ 64 := b.isLt
  have hsign : (unpackSign b).toNat = b.toNat >>> 63 % 2 := rfl
  rw [hsign, Nat.shiftRight_eq_div_pow, Nat.pow_eq]
  omega

theorem toNat_packComponents (s : Sign) (e : BitVec 11) (m : BitVec 52) :
    (packComponents Format.binary64 s e m).toNat =
      s.toBitVec.toNat * Nat.pow 2 63 + e.toNat * Nat.pow 2 52 + m.toNat := by
  have he : e.toNat < 2 ^ 11 := e.isLt
  have hm : m.toNat < 2 ^ 52 := m.isLt
  simp only [packComponents, BitVec.toNat_append]
  rw [← Nat.shiftLeft_add_eq_or_of_lt hm, ← Nat.shiftLeft_add_eq_or_of_lt he]
  simp only [Nat.shiftLeft_eq, Nat.pow_eq, Nat.reducePow]
  omega

theorem toBitVec_ofBitVec (s : BitVec 1) : (Sign.ofBitVec s).toBitVec = s := by
  revert s
  decide

/-- A pattern is put together from its fields. -/
theorem packComponents_of_fields {b : BitVec Format.binary64.numBits} {e : BitVec 11} {m : BitVec 52}
    (he : unpackExponent b = e) (hm : unpackMantissa b = m) :
    packComponents Format.binary64 (Sign.ofBitVec (unpackSign b)) e m = b := by
  apply BitVec.eq_of_toNat_eq
  rw [← he, ← hm, toNat_packComponents, toBitVec_ofBitVec, toNat_unpackSign, toNat_unpackExponent, toNat_unpackMantissa]
  simp only [Nat.pow_eq, Nat.reducePow]
  omega

end Fields

/-! ## normal and subnormal numbers -/

section Kinds

variable (s : Sign) (e : BitVec 11) (m : BitVec 52)

/-- The mantissa of a normal number has a leading bit that its pattern leaves out. -/
theorem toNat_implicit : (1#1 ++ m).toNat = Nat.pow 2 52 + m.toNat := by
  rw [BitVec.toNat_append, ← Nat.shiftLeft_add_eq_or_of_lt m.isLt]
  rfl

theorem log2_implicit : (1#1 ++ m).toNat.log2 = 52 := by
  have hm : m.toNat < 2 ^ 52 := m.isLt
  have hne : (1#1 ++ m).toNat ≠ 0 := by
    rw [toNat_implicit, Nat.pow_eq]
    omega
  rw [Nat.log2_eq_iff hne, toNat_implicit, Nat.pow_eq]
  omega

theorem log2_lt_of_mantissa : m.toNat.log2 < 52 := by
  by_cases h : m.toNat = 0
  · rw [h]
    decide
  · exact (Nat.log2_lt h).2 m.isLt

/-- A finite number is normal if its mantissa has all bits, and too large if its exponent has no place. -/
theorem pack_finite (n : Nat) (exponent : Int) (hpos : 0 < n) :
    pack Format.binary64 (.finite s n exponent hpos) =
      if Nat.pow 2 11 ≤
          (exponent + Format.binary64.exponentBias + Format.binary64.mantissaBitsWithoutImplicit).toNat + 1 then
        packedInfinity Format.binary64 s
      else if n.log2 + 1 = Format.binary64.mantissaBits then
        packComponents Format.binary64 s
          (BitVec.ofNat 11 (exponent + Format.binary64.exponentBias +
            Format.binary64.mantissaBitsWithoutImplicit).toNat)
          (BitVec.ofNat 52 n)
      else packComponents Format.binary64 s 0#11 (BitVec.ofNat 52 n) := rfl

theorem pack_normal (h : e ≠ -1#11) (hpos : 0 < (1#1 ++ m).toNat) :
    pack Format.binary64 (.finite s (1#1 ++ m).toNat
      (e.toNat - (Format.binary64.exponentBias + Format.binary64.mantissaBitsWithoutImplicit)) hpos) =
      packComponents Format.binary64 s e m := by
  have he : e.toNat < 2047 := by
    have hlt : e.toNat < 2048 := e.isLt
    have hne : e.toNat ≠ 2047 := fun h' => h (BitVec.eq_of_toNat_eq h')
    omega
  have hbias : ((e.toNat : Int) - (Format.binary64.exponentBias + Format.binary64.mantissaBitsWithoutImplicit) +
      Format.binary64.exponentBias + Format.binary64.mantissaBitsWithoutImplicit).toNat = e.toNat := by omega
  have hexponent : BitVec.ofNat 11 e.toNat = e := by rw [BitVec.ofNat_toNat, BitVec.setWidth_eq]
  have hmantissa : BitVec.ofNat 52 (1#1 ++ m).toNat = m := by
    apply BitVec.eq_of_toNat_eq
    have hm : m.toNat < 2 ^ 52 := m.isLt
    rw [toNat_implicit, BitVec.toNat_ofNat, Nat.pow_eq]
    omega
  have hsmall : ¬ Nat.pow 2 11 ≤ e.toNat + 1 := by
    rw [Nat.pow_eq]
    omega
  rw [pack_finite, hbias, log2_implicit, if_neg hsmall, if_pos (by decide), hexponent, hmantissa]

theorem pack_subnormal (he : e = 0#11) (hpos : 0 < m.toNat) :
    pack Format.binary64 (.finite s m.toNat
      (e.toNat - (Format.binary64.exponentBias + Format.binary64.mantissaBitsWithoutImplicit) + 1) hpos) =
      packComponents Format.binary64 s e m := by
  subst he
  have hlog := log2_lt_of_mantissa m
  have hbits : ¬ m.toNat.log2 + 1 = Format.binary64.mantissaBits := by
    have h53 : Format.binary64.mantissaBits = 53 := by decide
    omega
  rw [pack_finite, if_neg (by decide), if_neg hbits, BitVec.ofNat_toNat, BitVec.setWidth_eq]

/-- What a valid pattern stands for has it as its pattern. -/
theorem pack_unpack {b : BitVec Format.binary64.numBits} (hv : Format.binary64.Valid b) :
    pack Format.binary64 (unpack Format.binary64 b) = b := by
  unfold unpack
  extract_lets mantissa exponent power signBit sign
  by_cases hall : exponent = -1#11
  · rw [if_pos hall]
    by_cases hm : mantissa = 0#52
    · rw [if_pos hm]
      exact packComponents_of_fields hall hm
    · rw [if_neg hm]
      exact (hv.eq_packedNaN hall hm).symm
  · rw [if_neg hall]
    by_cases hnone : exponent = 0#11
    · rw [if_pos hnone]
      by_cases hm : mantissa = 0#52
      · rw [dif_pos hm]
        exact packComponents_of_fields hnone hm
      · rw [dif_neg hm]
        exact (pack_subnormal _ _ _ hnone _).trans (packComponents_of_fields rfl rfl)
    · rw [if_neg hnone]
      exact (pack_normal _ _ _ hall _).trans (packComponents_of_fields rfl rfl)

end Kinds

/-! ## floats -/

theorem toBits_ofBits_of_valid {bits : UInt64} (h : Format.binary64.Valid bits.toBitVec) :
    (Float.ofBits bits).toBits = bits := by
  show UInt64.ofBitVec (pack Format.binary64 (unpack Format.binary64 bits.toBitVec)) = bits
  rw [pack_unpack h]

/-- The number with a pattern. -/
def ofPattern (bits : Nat) : Float := Float.ofBits (UInt64.ofNat bits)

section Magnitudes

variable {bits : Nat}

theorem toNat_ofNat_of_le (h : bits ≤ infinityBits) : (UInt64.ofNat bits).toNat = bits := by
  have hlt : infinityBits < 2 ^ 64 := by decide
  rw [UInt64.toNat_ofNat']
  exact Nat.mod_eq_of_lt (Nat.lt_of_le_of_lt h hlt)

/-- No pattern up to that of infinity is one of a NaN. -/
theorem valid_of_le (h : bits ≤ infinityBits) : Format.binary64.Valid (UInt64.ofNat bits).toBitVec := by
  refine ⟨fun he hm => absurd ?_ hm⟩
  have hbits : (UInt64.ofNat bits).toBitVec.toNat = bits := toNat_ofNat_of_le h
  have hexponent := toNat_unpackExponent (UInt64.ofNat bits).toBitVec
  have hmantissa := toNat_unpackMantissa (UInt64.ofNat bits).toBitVec
  have hall : (-1#11).toNat = 2047 := by decide
  rw [he, hall, hbits] at hexponent
  rw [hbits] at hmantissa
  apply BitVec.eq_of_toNat_eq
  rw [hmantissa]
  simp only [infinityBits, Nat.pow_eq, Nat.reducePow, Nat.reduceMul] at h hexponent ⊢
  show bits % 4503599627370496 = 0
  omega

/-- The pattern of a number is the one that it was made from. -/
theorem toBits_ofPattern (h : bits ≤ infinityBits) : (ofPattern bits).toBits.toNat = bits := by
  rw [ofPattern, toBits_ofBits_of_valid (valid_of_le h), toNat_ofNat_of_le h]

theorem ofFloat_ofPattern (h : bits < infinityBits) :
    Binary64.ofFloat (ofPattern bits) = .finite false (magnitude bits).1 (magnitude bits).2 := by
  have hbits := toBits_ofPattern (Nat.le_of_lt h)
  have hsign : infinityBits < Nat.pow 2 63 := by decide
  have hrest : bits % Nat.pow 2 63 = bits := Nat.mod_eq_of_lt (Nat.lt_trans h hsign)
  have hpositive : ¬ Nat.pow 2 63 ≤ bits := Nat.not_le_of_lt (Nat.lt_trans h hsign)
  rw [Binary64.ofFloat, Binary64.ofBits, hbits, hrest, if_pos h, decide_eq_false hpositive]

/-- Infinity is not finite. -/
theorem lt_of_isFinite (h : bits ≤ infinityBits) (hfinite : (ofPattern bits).isFinite = true) :
    bits < infinityBits := by
  refine Nat.lt_of_le_of_ne h ?_
  rintro rfl
  revert hfinite
  decide

end Magnitudes

end ScriptLang.Decimal
