import Egg.Proofs.ExactValue

namespace Egg

namespace Rounding

theorem halfEven_eq_or (num den : ℕ) :
    halfEven num den = num / den ∨ halfEven num den = num / den + 1 := by
  unfold halfEven
  dsimp only
  split_ifs <;> omega

/-- Rounding reaches an even number from half a unit below it on. -/
theorem le_halfEven_iff {num den k : ℕ} (hden : 0 < den) :
    2 * k ≤ halfEven num den ↔ 4 * k * den ≤ 2 * num + den := by
  have hnum := Nat.div_add_mod num den
  have hrest := Nat.mod_lt num hden
  have hround := halfEven_eq_or num den
  rcases Nat.lt_trichotomy (2 * k) (num / den + 1) with hlt | heq | hgt
  · have hmul : 4 * k * den ≤ 2 * (den * (num / den)) := by
      rw [show 2 * (den * (num / den)) = 2 * (num / den) * den by ring]
      exact Nat.mul_le_mul_right den (by omega)
    omega
  · -- the number below is odd, so half a unit is enough
    have hmul : 4 * k * den = 2 * (den * (num / den)) + 2 * den := by
      rw [show 4 * k = 2 * (2 * k) by ring, heq]
      ring
    unfold halfEven
    dsimp only
    split_ifs <;> omega
  · have hmul : 2 * (den * (num / den)) + 4 * den ≤ 4 * k * den := by
      rw [show 2 * (den * (num / den)) + 4 * den = (2 * (num / den) + 4) * den by ring]
      exact Nat.mul_le_mul_right den (by omega)
    omega

theorem lastPlace_one {n : ℕ} (hn : n ≠ 0) : lastPlace n 1 = n.log2 - 52 := by
  have hlog := Nat.log2_self_le hn
  have hone : Nat.log2 1 = 0 := rfl
  have hwide : 1 * Nat.pow 2 53 * Nat.pow 2 ((n.log2 : ℤ) - (Nat.log2 1 : ℕ) - 53).toNat ≤
      n * Nat.pow 2 (-((n.log2 : ℤ) - (Nat.log2 1 : ℕ) - 53)).toNat := by
    rw [hone]
    change 1 * 2 ^ 53 * 2 ^ _ ≤ n * 2 ^ _
    calc 1 * 2 ^ 53 * 2 ^ ((n.log2 : ℤ) - (0 : ℕ) - 53).toNat
        = 2 ^ n.log2 * 2 ^ (-((n.log2 : ℤ) - (0 : ℕ) - 53)).toNat := by
          rw [one_mul, ← pow_add, ← pow_add]
          congr 1
          omega
      _ ≤ n * 2 ^ (-((n.log2 : ℤ) - (0 : ℕ) - 53)).toNat := Nat.mul_le_mul_right _ hlog
  rw [lastPlace]
  simp only [if_pos hwide]
  omega

/-- The bit pattern of the float nearest to a positive integer. It reaches the pattern of
infinity, or goes beyond, for those that are too large. -/
def bits (n : ℕ) : ℕ :=
  (n.log2 + 1022) * 2 ^ 52 + scaled n 1 (n.log2 - 52)

theorem nearest_one {n : ℕ} (hn : n ≠ 0) :
    nearest n 1 = Float.ofBits (min (bits n) infinityBits).toUInt64 := by
  have hexponent : ((n.log2 : ℤ) - 52 + 1074).toNat = n.log2 + 1022 := by
    omega
  rw [nearest, if_neg hn]
  simp only [lastPlace_one hn, hexponent]
  rfl

/-- The last binary place is chosen such that there are 53 of them; rounding up may add one more.
-/
theorem scaled_bounds {n : ℕ} (hn : n ≠ 0) :
    2 ^ 52 ≤ scaled n 1 (n.log2 - 52) ∧ scaled n 1 (n.log2 - 52) ≤ 2 ^ 53 := by
  have hlog := Nat.log2_self_le hn
  have hlt : n < 2 ^ (n.log2 + 1) := Nat.lt_log2_self
  have hplaces : 52 + ((n.log2 : ℤ) - 52).toNat = n.log2 + (-((n.log2 : ℤ) - 52)).toNat := by
    omega
  have hscaled : scaled n 1 (n.log2 - 52) =
      halfEven (n * 2 ^ (-((n.log2 : ℤ) - 52)).toNat) (1 * 2 ^ ((n.log2 : ℤ) - 52).toNat) := rfl
  rw [hscaled]
  generalize (-((n.log2 : ℤ) - 52)).toNat = up at *
  generalize ((n.log2 : ℤ) - 52).toNat = down at *
  have hfloor : 2 ^ 52 ≤ n * 2 ^ up / (1 * 2 ^ down) := by
    rw [one_mul, Nat.le_div_iff_mul_le (by positivity), ← pow_add, hplaces, pow_add]
    exact Nat.mul_le_mul_right _ hlog
  have hceil : n * 2 ^ up / (1 * 2 ^ down) < 2 ^ 53 := by
    rw [one_mul, Nat.div_lt_iff_lt_mul (by positivity), ← pow_add,
      show 53 + down = n.log2 + 1 + up by omega, pow_add _ (n.log2 + 1)]
    exact Nat.mul_lt_mul_of_pos_right hlt (by positivity)
  have hround := halfEven_eq_or (n * 2 ^ up) (1 * 2 ^ down)
  omega

theorem halfEven_one (num : ℕ) : halfEven num 1 = num := by
  simp [halfEven, Nat.mod_one]

theorem pow_dvd_scaled (n : ℕ) : 2 ^ 52 ∣ scaled n 1 (n.log2 - 52) * 2 ^ n.log2 := by
  rcases Nat.le_total 52 n.log2 with hle | hle
  · exact (pow_dvd_pow 2 hle).mul_left _
  · -- up to 53 binary places nothing is rounded away
    have hup : (-((n.log2 : ℤ) - 52)).toNat = 52 - n.log2 := by omega
    have hdown : ((n.log2 : ℤ) - 52).toNat = 0 := by omega
    have hscaled : scaled n 1 (n.log2 - 52) = n * 2 ^ (52 - n.log2) := by
      rw [scaled, hup, hdown]
      exact halfEven_one _
    rw [hscaled, Nat.mul_assoc, ← pow_add, Nat.sub_add_cancel hle]
    exact Nat.dvd_mul_left _ _

theorem le_scaled_iff {n k : ℕ} (hlog : n.log2 = k + 53) :
    2 ^ 53 ≤ scaled n 1 (n.log2 - 52) ↔ (2 ^ 54 - 1) * 2 ^ k ≤ n := by
  have hup : (-((n.log2 : ℤ) - 52)).toNat = 0 := by omega
  have hdown : ((n.log2 : ℤ) - 52).toNat = k + 1 := by omega
  rw [scaled, hup, hdown]
  change 2 * 2 ^ 52 ≤ halfEven (n * 2 ^ 0) (1 * 2 ^ (k + 1)) ↔ _
  rw [le_halfEven_iff (by positivity), pow_succ]
  omega

/-- The least integer that is too large for a float. It lies half a unit beyond the greatest
float. -/
def limit : ℕ :=
  2 ^ 1024 - 2 ^ 970

theorem exists_limit_eq : ∃ k, k = 970 ∧ limit = (2 ^ 54 - 1) * 2 ^ k := by
  have hplaces : 1024 = 54 + 970 := rfl
  refine ⟨970, rfl, ?_⟩
  unfold limit
  rw [hplaces]
  generalize 970 = k
  rw [pow_add, Nat.sub_mul, one_mul]

theorem limit_pos : 0 < limit := by
  obtain ⟨k, -, hlimit⟩ := exists_limit_eq
  rw [hlimit]
  positivity

theorem infinityBits_le_bits_iff {n : ℕ} (hn : n ≠ 0) : infinityBits ≤ bits n ↔ limit ≤ n := by
  obtain ⟨k, hk, hlimit⟩ := exists_limit_eq
  have hlog := Nat.log2_self_le hn
  have hlt : n < 2 ^ (n.log2 + 1) := Nat.lt_log2_self
  obtain ⟨hlower, hupper⟩ := scaled_bounds hn
  change 2047 * 2 ^ 52 ≤ (n.log2 + 1022) * 2 ^ 52 + scaled n 1 (n.log2 - 52) ↔ _
  rw [hlimit]
  rcases Nat.lt_trichotomy n.log2 (k + 53) with hsmall | hedge | hlarge
  · have hbelow : n < 2 ^ (53 + k) := hlt.trans_le (Nat.pow_le_pow_right two_pos (by omega))
    rw [pow_add] at hbelow
    omega
  · rw [← le_scaled_iff hedge]
    omega
  · have habove : 2 ^ (54 + k) ≤ n := (Nat.pow_le_pow_right two_pos (by omega)).trans hlog
    rw [pow_add] at habove
    omega

end Rounding

open Float.Model Float.Model.UnpackedFloat

namespace Fields

theorem toNat_pattern_ofBits {c : ℕ} (h : c ≤ Rounding.infinityBits) :
    (pattern (Float.ofBits c.toUInt64)).toNat = c := by
  change c ≤ 2047 * 2 ^ 52 at h
  obtain ⟨word, hword⟩ : ∃ word : BitVec Format.binary64.numBits, word = c.toUInt64.toBitVec :=
    ⟨_, rfl⟩
  have htoNat : word.toNat = c := by
    rw [hword]
    exact Nat.mod_eq_of_lt (by omega)
  have hnumber : ¬ isNaNBits word = true := by
    rw [isNaNBits, decide_eq_true_eq]
    rintro ⟨hexponent, hmantissa⟩
    apply hmantissa
    rw [← BitVec.toNat_inj, unpackExponent_def, BitVec.extractLsb'_toNat, Nat.shiftRight_eq_div_pow,
      htoNat] at hexponent
    rw [← BitVec.toNat_inj, unpackMantissa_def, BitVec.extractLsb'_toNat, Nat.shiftRight_zero,
      htoNat]
    change c / 2 ^ 52 % 2 ^ 11 = 2047 at hexponent
    change c % 2 ^ 52 = 0
    omega
  change (UnpackedFloat.pack .binary64
    (UnpackedFloat.unpack .binary64 c.toUInt64.toBitVec)).toNat = c
  rw [← hword, pack_unpack, if_neg hnumber, htoNat]

theorem natAbs_apply (s : Sign) (n : ℕ) : (s.apply n).natAbs = n := by
  cases s <;> simp [Sign.apply]

theorem natAbs_units_le {x : Float} {units : ℤ} (h : (ofFloat x).size? = some (.finite units))
    {k : ℕ} (hk : 2045 ≤ k) : units.natAbs ≤ (2 ^ 53 - 1) * 2 ^ k := by
  have htop : (ofFloat x).exponent ≠ topExponent := by
    intro htop
    rw [size?, if_pos htop] at h
    split_ifs at h <;> cases h
  have hscale : (ofFloat x).scale ≤ k := by
    have hexponent := exponent_ofFloat_lt x
    change (ofFloat x).exponent ≠ 2047 at htop
    rw [scale]
    omega
  rw [size?_of_finite htop] at h
  cases h
  rw [natAbs_apply]
  have hsignificand := significand_ofFloat_lt x
  exact Nat.mul_le_mul (by omega) (Nat.pow_le_pow_right two_pos hscale)

theorem isInf_iff (x : Float) :
    x.isInf = true ↔ (ofFloat x).exponent = topExponent ∧ (ofFloat x).fraction = 0 := by
  change x.toModel.unpack.isInf = true ↔ _
  rw [unpack_toModel, toUnpacked]
  split_ifs with htop hfraction hsignificand
  all_goals simp [UnpackedFloat.isInf, *]

theorem fields_ofBits {c : ℕ} (h : c ≤ Rounding.infinityBits) :
    (ofFloat (Float.ofBits c.toUInt64)).exponent = c / 2 ^ 52 % 2 ^ 11 ∧
      (ofFloat (Float.ofBits c.toUInt64)).fraction = c % 2 ^ 52 :=
  ⟨congrArg (· / 2 ^ 52 % 2 ^ 11) (toNat_pattern_ofBits h),
    congrArg (· % 2 ^ 52) (toNat_pattern_ofBits h)⟩

theorem isInf_ofBits_iff {c : ℕ} (h : c ≤ Rounding.infinityBits) :
    (Float.ofBits c.toUInt64).isInf = true ↔ c = Rounding.infinityBits := by
  obtain ⟨hexponent, hfraction⟩ := fields_ofBits h
  rw [isInf_iff, hexponent, hfraction]
  change c ≤ 2047 * 2 ^ 52 at h
  change _ = 2047 ∧ _ ↔ c = 2047 * 2 ^ 52
  omega

theorem pattern_eq_pack (x : Float) : pattern x = UnpackedFloat.pack .binary64 x.toModel.unpack :=
  (pack_unpack_of_valid x.toModel.valid).symm

theorem fields_pack_neg (u : UnpackedFloat) :
    unpackExponent (UnpackedFloat.pack .binary64 u.neg) =
        unpackExponent (UnpackedFloat.pack .binary64 u) ∧
      unpackMantissa (UnpackedFloat.pack .binary64 u.neg) =
        unpackMantissa (UnpackedFloat.pack .binary64 u) := by
  cases u with
  | infinity s => simp [UnpackedFloat.neg, UnpackedFloat.pack, packedInfinity]
  | notANumber => exact ⟨rfl, rfl⟩
  | zero s => simp [UnpackedFloat.neg, UnpackedFloat.pack, packedZero]
  | finite s mantissa exponent hpos =>
      rw [UnpackedFloat.neg, UnpackedFloat.pack, UnpackedFloat.pack, packedInfinity, packedInfinity]
      split_ifs <;> simp only [unpackExponent_packComponents, unpackMantissa_packComponents,
        and_self]

theorem fields_neg (x : Float) : (ofFloat (-x)).exponent = (ofFloat x).exponent ∧
    (ofFloat (-x)).fraction = (ofFloat x).fraction := by
  have hneg : pattern (-x) = UnpackedFloat.pack .binary64 x.toModel.unpack.neg := rfl
  obtain ⟨hexponent, hmantissa⟩ := fields_pack_neg x.toModel.unpack
  rw [← hneg, ← pattern_eq_pack] at hexponent hmantissa
  rw [exponent_ofFloat, exponent_ofFloat, fraction_ofFloat, fraction_ofFloat, hexponent, hmantissa]
  exact ⟨rfl, rfl⟩

theorem isInf_neg (x : Float) : (-x).isInf = x.isInf := by
  obtain ⟨hexponent, hfraction⟩ := fields_neg x
  rw [Bool.eq_iff_iff, isInf_iff, isInf_iff, hexponent, hfraction]

theorem isSome_toInt?_iff (x : Float) :
    (Number.float x).toInt?.isSome = true ↔ (ofFloat x).exponent ≠ topExponent ∧
      Size.one ∣ (ofFloat x).significand * 2 ^ (ofFloat x).scale := by
  rw [Number.toInt?]
  by_cases htop : (ofFloat x).exponent = topExponent
  · refine iff_of_false ?_ fun h => h.1 htop
    rw [size?, if_pos htop]
    split_ifs <;> exact Bool.false_ne_true
  · rw [size?_of_finite htop, Option.bind_some, Size.toInt?, Option.isSome_ite,
      ← Int.dvd_iff_emod_eq_zero, Int.natCast_dvd, natAbs_apply]
    exact (and_iff_right htop).symm

theorem isSome_toInt?_neg (x : Float) :
    (Number.float (-x)).toInt?.isSome = (Number.float x).toInt?.isSome := by
  obtain ⟨hexponent, hfraction⟩ := fields_neg x
  rw [Bool.eq_iff_iff, isSome_toInt?_iff, isSome_toInt?_iff, significand, significand, scale,
    scale, hexponent, hfraction]

/-- A pattern made of an exponent and of 53 binary places counts these places by the exponent,
also if the places are so many that they carry over into it. -/
theorem magnitude_ofBits {e s : ℕ} (hlower : 2 ^ 52 ≤ s) (hupper : s ≤ 2 ^ 53)
    (hfinite : e * 2 ^ 52 + s < Rounding.infinityBits) {f : Fields}
    (hf : f = ofFloat (Float.ofBits (e * 2 ^ 52 + s).toUInt64)) :
    f.exponent ≠ topExponent ∧ f.significand * 2 ^ f.scale = s * 2 ^ e := by
  obtain ⟨hexponent, hfraction⟩ := fields_ofBits hfinite.le
  rw [← hf] at hexponent hfraction
  clear hf
  change e * 2 ^ 52 + s < 2047 * 2 ^ 52 at hfinite
  have hne : f.exponent ≠ 0 := by omega
  constructor
  · change f.exponent ≠ 2047
    omega
  · rw [significand, if_neg hne, scale]
    change (2 ^ 52 + f.fraction) * 2 ^ (f.exponent - 1) = _
    rcases Nat.lt_or_eq_of_le hupper with hlt | rfl
    · rw [show f.exponent - 1 = e by omega, show 2 ^ 52 + f.fraction = s by omega]
    · rw [show f.exponent - 1 = e + 1 by omega, show 2 ^ 52 + f.fraction = 2 ^ 52 by omega]
      ring

end Fields

theorem Rounding.isInf_nearest_one_iff (n : ℕ) : (nearest n 1).isInf = true ↔ limit ≤ n := by
  rcases eq_or_ne n 0 with rfl | hn
  · exact iff_of_false (by decide) limit_pos.not_ge
  · rw [nearest_one hn, Fields.isInf_ofBits_iff (Nat.min_le_right _ _), min_eq_right_iff]
    exact infinityBits_le_bits_iff hn

theorem Rounding.isSome_toInt?_nearest_one {n : ℕ} (hn : n < limit) :
    (Number.float (nearest n 1)).toInt?.isSome = true := by
  rcases eq_or_ne n 0 with rfl | hne
  · decide +kernel
  · have hfinite : bits n < infinityBits :=
      not_le.mp (mt (infinityBits_le_bits_iff hne).mp (not_le.mpr hn))
    obtain ⟨hlower, hupper⟩ := scaled_bounds hne
    obtain ⟨htop, hmagnitude⟩ := Fields.magnitude_ofBits hlower hupper hfinite rfl
    obtain ⟨k, hk, hone⟩ := Size.exists_one_eq
    rw [nearest_one hne, min_eq_left hfinite.le, bits, Fields.isSome_toInt?_iff]
    refine ⟨htop, ?_⟩
    rw [hmagnitude, hone, show k = 52 + 1022 by omega, pow_add, pow_add, ← Nat.mul_assoc]
    exact Nat.mul_dvd_mul_right (pow_dvd_scaled n) _

namespace Number

/-- A number that is no integer too large for a float. -/
def FitsFloat : Number → Prop
  | int i => |i| < Rounding.limit
  | float _ => True

theorem isInf_ratio_one_iff (i : ℤ) : (ratio i 1).isInf = true ↔ Rounding.limit ≤ |i| := by
  have hratio : (ratio i 1).isInf = (Rounding.nearest i.natAbs 1).isInf := by
    rw [ratio]
    split_ifs
    · exact Fields.isInf_neg _
    · rfl
  rw [hratio, Rounding.isInf_nearest_one_iff, ← Int.natCast_natAbs, Int.ofNat_le]

theorem isSome_toInt?_ratio_one {i : ℤ} (hi : |i| < Rounding.limit) :
    (float (ratio i 1)).toInt?.isSome = true := by
  rw [← Int.natCast_natAbs, Int.ofNat_lt] at hi
  have hnearest := Rounding.isSome_toInt?_nearest_one hi
  rw [ratio]
  split_ifs
  · rw [Fields.isSome_toInt?_neg]
    exact hnearest
  · exact hnearest

theorem isSome_toInt?_of_toFloat {n : Number} {x : Float} (h : n.toFloat = .ok x) :
    (float x).toInt?.isSome = n.toInt?.isSome := by
  cases n with
  | float y =>
      cases h
      rfl
  | int i =>
      rw [toFloat] at h
      split_ifs at h with hinf
      cases h
      rw [isInf_ratio_one_iff, not_le] at hinf
      exact isSome_toInt?_ratio_one hinf

theorem toFloat_of_fitsFloat {n : Number} (h : n.FitsFloat) : ∃ x, n.toFloat = .ok x := by
  cases n with
  | int i => exact ⟨_, if_neg (mt (isInf_ratio_one_iff i).mp (not_le.mpr h))⟩
  | float x => exact ⟨x, rfl⟩

theorem toFloat_of_not_fitsFloat {n : Number} (h : ¬ n.FitsFloat) :
    n.toFloat = .error .integer := by
  cases n with
  | int i => exact if_pos ((isInf_ratio_one_iff i).mpr (not_lt.mp h))
  | float x => exact absurd trivial h

theorem not_fitsFloat_limit : ¬ (int Rounding.limit).FitsFloat := by
  rw [FitsFloat, abs_of_nonneg (Int.natCast_nonneg _)]
  exact lt_irrefl _

theorem fitsFloat_of_value?_float {x : Float} {i : ℤ} (h : (float x).value? = some (i : ℚ)) :
    (int i).FitsFloat := by
  rw [value?_eq, Option.bind_eq_some_iff] at h
  obtain ⟨size, hsize, hvalue⟩ := h
  cases size with
  | negInf | posInf => cases hvalue
  | finite units =>
      obtain rfl := Size.value?_finite_eq_some_iff.mp hvalue
      obtain ⟨k, hk, hlimit⟩ := Rounding.exists_limit_eq
      obtain ⟨l, hl, hone⟩ := Size.exists_one_eq
      have hunits := Fields.natAbs_units_le hsize (show 2045 ≤ 1 + k + l by omega)
      rw [Int.natAbs_mul, Int.natAbs_natCast, hone, pow_add, ← Nat.mul_assoc] at hunits
      have hsmall : i.natAbs ≤ (2 ^ 53 - 1) * 2 ^ (1 + k) :=
        Nat.le_of_mul_le_mul_right hunits (Nat.two_pow_pos l)
      have hpos := Nat.two_pow_pos k
      rw [FitsFloat, ← Int.natCast_natAbs, hlimit, Int.ofNat_lt]
      rw [pow_add] at hsmall
      omega

end Number

end Egg
