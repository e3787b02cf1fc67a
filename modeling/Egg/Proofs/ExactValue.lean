import Egg.Number.Basic
import Mathlib

namespace Egg

open Float.Model Float.Model.UnpackedFloat

/-- The rational number that a number stands for. Infinities and NaNs stand for none. -/
def Number.value? : Number → Option ℚ
  | .int i => some i
  | .float x =>
    match x.toModel.unpack with
    | .zero _ => some 0
    | .finite sign mantissa exponent _ => some (sign.apply mantissa * 2 ^ exponent)
    | .infinity _ | .notANumber => none

/-- The rational number that a size is, if it is finite. -/
def Size.value? : Size → Option ℚ
  | .finite units => some (units / one)
  | .negInf | .posInf => none

/-- One, with the exponent kept apart so that no step computes the power. -/
theorem Size.exists_one_eq : ∃ k, k = 1074 ∧ one = 2 ^ k := by
  refine ⟨1074, rfl, ?_⟩
  unfold one
  generalize 1074 = k
  rfl

theorem Size.cast_one : (one : ℚ) = 2 ^ (1074 : ℤ) := by
  obtain ⟨k, hk, hone⟩ := exists_one_eq
  have hplaces : (k : ℤ) = 1074 := by omega
  rw [hone, ← hplaces, zpow_natCast, Nat.cast_pow, Nat.cast_ofNat]

theorem Size.cast_one_ne_zero : (one : ℚ) ≠ 0 := by
  rw [cast_one]
  exact zpow_ne_zero _ two_ne_zero

namespace Fields

def pattern (x : Float) : BitVec Format.binary64.numBits :=
  x.toModel.toBits.toBitVec

theorem exponent_ofFloat (x : Float) :
    (ofFloat x).exponent = (unpackExponent (pattern x)).toNat := by
  rw [unpackExponent_def, BitVec.extractLsb'_toNat, Nat.shiftRight_eq_div_pow]
  rfl

theorem fraction_ofFloat (x : Float) :
    (ofFloat x).fraction = (unpackMantissa (pattern x)).toNat := by
  rw [unpackMantissa_def, BitVec.extractLsb'_toNat, Nat.shiftRight_zero]
  rfl

def sign (f : Fields) : Sign :=
  if f.negative then .negative else .positive

theorem sign_ofFloat (x : Float) : (ofFloat x).sign = Sign.ofBitVec (unpackSign (pattern x)) := by
  have hbits : (pattern x).toNat < 2 ^ 64 := (pattern x).isLt
  have hzero : unpackSign (pattern x) = 0#1 ↔ (pattern x).toNat < 2 ^ 63 := by
    rw [← BitVec.toNat_inj, unpackSign_def, BitVec.extractLsb'_toNat, Nat.shiftRight_eq_div_pow]
    change (pattern x).toNat / 2 ^ 63 % 2 = 0 ↔ _
    omega
  have hnegative : (ofFloat x).negative = true ↔ 2 ^ 63 ≤ (pattern x).toNat := decide_eq_true_iff
  by_cases h : (pattern x).toNat < 2 ^ 63
  · rw [Sign.ofBitVec, if_pos (hzero.mpr h), sign, if_neg (by rw [hnegative]; omega)]
  · rw [Sign.ofBitVec, if_neg (mt hzero.mp h), sign, if_pos (by rw [hnegative]; omega)]

theorem exponent_ofFloat_lt (x : Float) : (ofFloat x).exponent < 2 ^ 11 := by
  rw [exponent_ofFloat]
  exact BitVec.isLt _

theorem significand_ofFloat_lt (x : Float) : (ofFloat x).significand < 2 ^ 53 := by
  have hfraction : (ofFloat x).fraction < 2 ^ 52 := by
    rw [fraction_ofFloat]
    exact BitVec.isLt _
  change (if (ofFloat x).exponent = 0 then (ofFloat x).fraction
    else 2 ^ 52 + (ofFloat x).fraction) < _
  split_ifs <;> omega

theorem exponent_eq_top_iff (x : Float) :
    (ofFloat x).exponent = topExponent ↔ unpackExponent (pattern x) = -1#_ := by
  rw [exponent_ofFloat, ← BitVec.toNat_inj]
  rfl

theorem exponent_eq_zero_iff (x : Float) :
    (ofFloat x).exponent = 0 ↔ unpackExponent (pattern x) = 0#_ := by
  rw [exponent_ofFloat, ← BitVec.toNat_inj]
  rfl

theorem fraction_eq_zero_iff (x : Float) :
    (ofFloat x).fraction = 0 ↔ unpackMantissa (pattern x) = 0#_ := by
  rw [fraction_ofFloat, ← BitVec.toNat_inj]
  rfl

theorem toNat_one_append (v : BitVec 52) : (1#1 ++ v).toNat = 2 ^ 52 + v.toNat := by
  rw [BitVec.toNat_append, ← Nat.shiftLeft_add_eq_or_of_lt v.isLt]
  rfl

/-- The float that has the given fields. -/
def toUnpacked (f : Fields) : UnpackedFloat :=
  if f.exponent = topExponent then
    if f.fraction = 0 then .infinity f.sign else .notANumber
  else if h : f.significand = 0 then .zero f.sign
  else .finite f.sign f.significand (f.scale - 1074) (Nat.pos_of_ne_zero h)

theorem unpack_toModel (x : Float) : x.toModel.unpack = (ofFloat x).toUnpacked := by
  change UnpackedFloat.unpack .binary64 (pattern x) = _
  rw [toUnpacked, sign_ofFloat]
  fun_cases UnpackedFloat.unpack with
  | case1 mantissa exponent sign _ hexponent hmantissa =>
      rw [if_pos ((exponent_eq_top_iff x).mpr hexponent),
        if_pos ((fraction_eq_zero_iff x).mpr hmantissa)]
  | case2 mantissa exponent hexponent hmantissa =>
      rw [if_pos ((exponent_eq_top_iff x).mpr hexponent),
        if_neg (mt (fraction_eq_zero_iff x).mp hmantissa)]
  | case3 mantissa exponent sign _ hexponent hzero hmantissa =>
      have hsignificand : (ofFloat x).significand = 0 := by
        rw [significand, if_pos ((exponent_eq_zero_iff x).mpr hzero)]
        exact (fraction_eq_zero_iff x).mpr hmantissa
      rw [if_neg (mt (exponent_eq_top_iff x).mp hexponent), dif_pos hsignificand]
  | case4 mantissa exponent power sign _ hexponent hzero hmantissa =>
      have hsignificand : (ofFloat x).significand = mantissa.toNat := by
        rw [significand, if_pos ((exponent_eq_zero_iff x).mpr hzero), fraction_ofFloat]
      have hscale : ((ofFloat x).scale : Int) - 1074 = power + 1 := by
        rw [scale, (exponent_eq_zero_iff x).mpr hzero]
        simp only [power, hzero, exponent]
        rfl
      have hne : (ofFloat x).significand ≠ 0 := by
        rw [hsignificand, ← fraction_ofFloat]
        exact mt (fraction_eq_zero_iff x).mp hmantissa
      rw [if_neg (mt (exponent_eq_top_iff x).mp hexponent), dif_neg hne]
      simp only [hsignificand, hscale]
      rfl
  | case5 mantissa exponent power sign _ hexponent hzero =>
      have hne : (ofFloat x).exponent ≠ 0 := mt (exponent_eq_zero_iff x).mp hzero
      have hsignificand : (ofFloat x).significand = (1#1 ++ mantissa).toNat := by
        rw [significand, if_neg hne, fraction_ofFloat]
        exact (toNat_one_append mantissa).symm
      have hscale : ((ofFloat x).scale : Int) - 1074 = power := by
        have hbias : power = (ofFloat x).exponent - (1023 + 52) := by
          rw [exponent_ofFloat]
          rfl
        rw [scale, hbias]
        omega
      have hpos : (ofFloat x).significand ≠ 0 := by
        rw [hsignificand, toNat_one_append]
        omega
      rw [if_neg (mt (exponent_eq_top_iff x).mp hexponent), dif_neg hpos]
      simp only [hsignificand, hscale]
      rfl

theorem size?_of_finite {f : Fields} (h : f.exponent ≠ topExponent) :
    f.size? = some (.finite (f.sign.apply (f.significand * 2 ^ f.scale : ℕ))) := by
  rw [size?, if_neg h, sign]
  split_ifs <;> rfl

theorem cast_apply (s : Sign) (n : ℕ) (q : ℚ) :
    ((s.apply n : ℤ) : ℚ) * q = s.apply 1 * (n * q) := by
  cases s <;> simp [Sign.apply]

theorem value?_of_finite {f : Fields} (h : f.exponent ≠ topExponent) :
    f.size?.bind Size.value? =
      some ((f.sign.apply f.significand : ℚ) * 2 ^ ((f.scale : ℤ) - 1074)) := by
  rw [size?_of_finite h, Option.bind_some, Size.value?, Option.some_inj, div_eq_mul_inv, cast_apply,
    cast_apply, zpow_sub₀ two_ne_zero, zpow_natCast, ← Size.cast_one, Nat.cast_mul, Nat.cast_pow]
  ring

end Fields

theorem Number.value?_eq (n : Number) : n.value? = n.size?.bind Size.value? := by
  cases n with
  | int i =>
    rw [size?, Option.bind_some, Size.value?, Int.cast_mul, Int.cast_natCast,
      mul_div_cancel_right₀ _ Size.cast_one_ne_zero]
    rfl
  | float x =>
    rw [value?, Fields.unpack_toModel, size?, Fields.toUnpacked]
    by_cases htop : (Fields.ofFloat x).exponent = Fields.topExponent
    · rw [if_pos htop, Fields.size?, if_pos htop]
      by_cases hfraction : (Fields.ofFloat x).fraction = 0
      · rw [if_pos hfraction, if_neg (by simpa using hfraction)]
        split_ifs <;> rfl
      · rw [if_neg hfraction, if_pos hfraction]
        rfl
    · rw [if_neg htop, Fields.value?_of_finite htop]
      by_cases hsignificand : (Fields.ofFloat x).significand = 0
      · rw [dif_pos hsignificand, hsignificand]
        cases (Fields.ofFloat x).sign <;> simp [Sign.apply]
      · rw [dif_neg hsignificand]

theorem Size.value?_finite_eq_some_iff {units i : ℤ} :
    (finite units).value? = some (i : ℚ) ↔ units = i * one := by
  rw [value?, Option.some_inj, div_eq_iff cast_one_ne_zero]
  exact_mod_cast Iff.rfl

theorem Size.toInt?_eq_some_iff {size : Size} {i : ℤ} :
    size.toInt? = some i ↔ size.value? = some (i : ℚ) := by
  cases size with
  | negInf | posInf => simp [toInt?, value?]
  | finite units =>
      have hone : (one : ℤ) ≠ 0 := by
        exact_mod_cast cast_one_ne_zero
      rw [value?_finite_eq_some_iff, toInt?]
      constructor
      · intro h
        split_ifs at h with hmod
        cases h
        exact (Int.ediv_mul_cancel (Int.dvd_of_emod_eq_zero hmod)).symm
      · rintro rfl
        rw [if_pos (Int.mul_emod_left i one), Int.mul_ediv_cancel i hone]

theorem Number.toInt?_eq_some_iff {n : Number} {i : ℤ} :
    n.toInt? = some i ↔ n.value? = some (i : ℚ) := by
  cases n with
  | int j => simp [toInt?, value?]
  | float x =>
      rw [value?_eq, toInt?, size?, Option.bind_eq_some_iff, Option.bind_eq_some_iff]
      simp only [Size.toInt?_eq_some_iff]

end Egg
