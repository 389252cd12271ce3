import Mathlib

/-!
# Arithmetic of doubles

What the operations on doubles come to that byte sizes go through: conversions, products and
quotients of positive numbers of moderate size.  An operation first works out as many bits of its
result as fit, with two more bits for what is missing, and then rounds; so its result is the exact
one rounded to 53 bits.

## Main statements

- `Describes`: what a mantissa and the two bits after it tell about a number;
- `Rounds`: rounding to 53 bits, its error, and when it changes nothing;
- `roundWithAccuracy_rounds`: what is rounded is the number described;
- `Is`: the value of a double, with one lemma for each operation.
-/

namespace Lineage.Double

open Float.Model Float.Model.UnpackedFloat

/-! ## §1 Mantissas that are being rounded -/

/-- The number `p`, of which the mantissa is the whole part and two bits tell how much is missing:
nothing, less than a half, a half or more. -/
def Describes (em : ExtendedMantissa) (p : ℚ) : Prop :=
  match em with
  | ⟨m, false, false⟩ => p = m
  | ⟨m, false, true⟩ => m < p ∧ p < m + 1 / 2
  | ⟨m, true, false⟩ => p = m + 1 / 2
  | ⟨m, true, true⟩ => m + 1 / 2 < p ∧ p < m + 1

variable {em : ExtendedMantissa} {p : ℚ}

theorem Describes.shiftRightOne (h : Describes em p) : Describes em.shiftRightOne (p / 2) := by
  obtain ⟨m, round, sticky⟩ := em
  have hm : (m : ℚ) = 2 * (m / 2 : ℕ) + (m % 2 : ℕ) := by
    exact_mod_cast (Nat.div_add_mod m 2).symm
  -- the last bit of the mantissa becomes the half, and what was missing before less than that
  rcases Nat.mod_two_eq_zero_or_one m with hmod | hmod <;>
    rw [hmod] at hm <;>
    cases round <;> cases sticky <;>
    simp only [Describes, ExtendedMantissa.shiftRightOne, hmod, bne_self_eq_false, Bool.or_false,
      Bool.or_true, Nat.cast_zero, Nat.cast_one] at h hm ⊢ <;>
    grind

theorem Describes.shiftRight (h : Describes em p) (n : ℕ) : Describes (em >>> n) (p / 2 ^ n) := by
  -- bit by bit
  induction n with
  | zero => simpa [HShiftRight.hShiftRight, Nat.repeat] using h
  | succ n ih =>
    have hstep := ih.shiftRightOne
    rw [div_div, ← pow_succ] at hstep
    exact hstep

theorem Describes.mantissa_le (h : Describes em p) : (em.mantissa : ℚ) ≤ p ∧
    p < em.mantissa + 1 := by
  obtain ⟨m, round, sticky⟩ := em
  cases round <;> cases sticky <;> simp only [Describes] at h ⊢ <;> grind

/-- The rounded mantissa is nearest. -/
theorem Describes.abs_rounded_sub_le (h : Describes em p) :
    |(em.roundedMantissa : ℚ) - p| ≤ 1 / 2 := by
  obtain ⟨m, round, sticky⟩ := em
  -- a tie goes to the even neighbour, which is as near as the other one
  have heven : ((m + m % 2 : ℕ) : ℚ) = m ∨ ((m + m % 2 : ℕ) : ℚ) = m + 1 := by
    rcases Nat.mod_two_eq_zero_or_one m with hmod | hmod
    · left
      rw [hmod, Nat.add_zero]
    · right
      rw [hmod, Nat.cast_add, Nat.cast_one]
  rw [abs_le]
  cases round <;> cases sticky <;>
    simp only [Describes, ExtendedMantissa.roundedMantissa, ExtendedMantissa.accuracy,
      Accuracy.roundToNearestEven, Nat.cast_add, Nat.cast_one] at h heven ⊢ <;>
    grind

/-! ## §2 Rounding -/

/-- `v` is `q` rounded to 53 bits, a whole multiple of a unit that `q` reaches 53 bits in. -/
def Rounds (q v : ℚ) : Prop :=
  ∃ (r : ℕ) (e : ℤ), v = r * 2 ^ e ∧ 2 ^ 52 * 2 ^ e ≤ q ∧ |v - q| ≤ 2 ^ e / 2

variable {q v : ℚ}

theorem Rounds.abs_sub_le (h : Rounds q v) : |v - q| ≤ q / 2 ^ 53 := by
  obtain ⟨r, e, -, hlarge, herror⟩ := h
  linarith

/-- What can be written in 53 bits is not changed. -/
theorem Rounds.eq_of_short {k s : ℕ} (h : Rounds (k * 2 ^ s : ℕ) v) (hk : k < 2 ^ 53) :
    v = (k * 2 ^ s : ℕ) := by
  obtain ⟨r, e, rfl, hlarge, herror⟩ := h
  have hpos : (0 : ℚ) < 2 ^ e := zpow_pos two_pos e
  -- a unit greater than the last bit of the number would need more than 53 bits for it
  have he : e ≤ s := by
    by_contra hgreat
    have hunit : (2 : ℚ) ^ (s + 1 : ℤ) ≤ 2 ^ e := zpow_le_zpow_right₀ one_le_two (by omega)
    rw [zpow_add_one₀ two_ne_zero, zpow_natCast] at hunit
    have hshort : (k : ℚ) * 2 ^ s < 2 ^ 53 * 2 ^ s := by
      have : (k : ℚ) < 2 ^ 53 := by exact_mod_cast hk
      exact mul_lt_mul_of_pos_right this (by positivity)
    push_cast at hlarge
    linarith
  -- in the unit both are whole
  obtain ⟨j, hj⟩ : ∃ j : ℕ, (s : ℤ) = e + j := ⟨(s - e).toNat, by omega⟩
  have hsplit : ((k * 2 ^ s : ℕ) : ℚ) = (k * 2 ^ j : ℕ) * 2 ^ e := by
    have hpow : (2 : ℚ) ^ s = 2 ^ e * 2 ^ j := by
      rw [← zpow_natCast, hj, zpow_add₀ two_ne_zero, zpow_natCast]
    push_cast
    rw [hpow]
    ring
  rw [hsplit] at herror ⊢
  rw [← sub_mul, abs_mul, abs_of_pos hpos] at herror
  -- two whole numbers less than one apart are the same
  have hclose : |(r : ℚ) - (k * 2 ^ j : ℕ)| < 1 := by
    rw [← mul_lt_mul_iff_left₀ hpos]
    linarith
  have hequal : |((r : ℤ) - (k * 2 ^ j : ℕ) : ℤ)| < 1 := by exact_mod_cast hclose
  rw [Int.abs_lt_one_iff] at hequal
  have hnat : r = k * 2 ^ j := by omega
  rw [hnat]

theorem Rounds.eq_natCast {n : ℕ} (h : Rounds n v) (hn : n < 2 ^ 53) : v = n := by
  have hshort := Rounds.eq_of_short (k := n) (s := 0) (v := v) (by simpa using h) hn
  simpa using hshort

/-- The error of a number that is rounded, scaled and rounded again. -/
theorem Rounds.abs_sub_mul_le {u c : ℚ} (h : Rounds q v) (h' : Rounds (v * c) u) (hq : 0 ≤ q)
    (hc : 0 ≤ c) : |u - q * c| ≤ 3 * (q * c) / 2 ^ 53 := by
  have hfirst := abs_le.1 h.abs_sub_le
  have hsecond := abs_le.1 h'.abs_sub_le
  -- the first error grows with the factor, and the second one is that of the product
  have hlow := mul_le_mul_of_nonneg_right hfirst.1 hc
  have hhigh := mul_le_mul_of_nonneg_right hfirst.2 hc
  have hproduct : 0 ≤ q * c := mul_nonneg hq hc
  rw [abs_le]
  norm_num at hfirst hsecond hlow hhigh ⊢
  constructor <;> linarith

/-- A number in the form that uses all 53 bits. -/
def Holds (f : UnpackedFloat) (v : ℚ) : Prop :=
  ∃ (m : ℕ) (e : ℤ) (h : 0 < m), f = .finite .positive m e h ∧ 2 ^ 52 ≤ m ∧ m < 2 ^ 53 ∧
    v = m * 2 ^ e

theorem shiftToTargetExponent_eq {m : ℕ} {e : ℤ} {acc : Accuracy} {s : ℕ}
    (hm : m.log2 = 52 + s) (he : -1074 ≤ e) :
    shiftToTargetExponent Format.binary64 m e acc =
      (ExtendedMantissa.ofMantissaAndAccuracy m acc >>> s, e + s) := by
  have htarget : Format.binary64.targetExponent (totalExponent m e) = e + s := by
    simp only [Format.targetExponent, totalExponent, Format.mantissaBits, Format.minExponent, hm]
    norm_num
    omega
  have hshift : (e + s - e).toNat = s := by omega
  rw [shiftToTargetExponent, htarget, shiftToExponent, hshift]

/-- As far as its length asks for, a number is shifted to 53 bits. -/
theorem div_pow_bounds {m s : ℕ} (hs : m.log2 = 52 + s) (hfloor : (m : ℚ) ≤ p)
    (hceil : p < m + 1) : 2 ^ 52 ≤ p / 2 ^ s ∧ p / 2 ^ s < 2 ^ 53 := by
  have hpow : (0 : ℚ) < 2 ^ s := by positivity
  have hm : m ≠ 0 := by
    rintro rfl
    simp at hs
    omega
  -- a whole number of `53 + s` bits stays between the powers of two that its length says
  have hlow : (2 : ℚ) ^ 52 * 2 ^ s ≤ m := by
    have hself := Nat.log2_self_le hm
    rw [hs, pow_add] at hself
    exact_mod_cast hself
  have hhigh : (m : ℚ) + 1 ≤ 2 ^ 53 * 2 ^ s := by
    have hself := Nat.lt_log2_self (n := m)
    rw [hs, show 52 + s + 1 = 53 + s by omega, pow_add] at hself
    exact_mod_cast hself
  constructor
  · rw [le_div_iff₀ hpow]
    exact hlow.trans hfloor
  · rw [div_lt_iff₀ hpow]
    exact hceil.trans_le hhigh

/-- Rounding may take a number to the next power of two, but not past it. -/
theorem Describes.roundedMantissa_bounds (h : Describes em p) (hlow : 2 ^ 52 ≤ p)
    (hhigh : p < 2 ^ 53) : 2 ^ 52 ≤ em.roundedMantissa ∧ em.roundedMantissa ≤ 2 ^ 53 := by
  have hround := abs_le.1 h.abs_rounded_sub_le
  constructor
  · -- a half does not take a whole number past the next one, on either side
    have hless : ((2 ^ 52 : ℕ) : ℚ) < em.roundedMantissa + 1 := by
      push_cast
      linarith
    have hnat : 2 ^ 52 < em.roundedMantissa + 1 := by exact_mod_cast hless
    omega
  · have hless : (em.roundedMantissa : ℚ) < (2 ^ 53 + 1 : ℕ) := by
      push_cast
      linarith
    have hnat : em.roundedMantissa < 2 ^ 53 + 1 := by exact_mod_cast hless
    omega

theorem Describes.rounds (h : Describes em p) (hlow : 2 ^ 52 ≤ p) (e : ℤ) :
    Rounds (p * 2 ^ e) (em.roundedMantissa * 2 ^ e) := by
  have hunit : (0 : ℚ) < 2 ^ e := zpow_pos two_pos e
  refine ⟨em.roundedMantissa, e, rfl, mul_le_mul_of_nonneg_right hlow hunit.le, ?_⟩
  have hscaled := mul_le_mul_of_nonneg_right h.abs_rounded_sub_le hunit.le
  rw [← sub_mul, abs_mul, abs_of_pos hunit]
  linarith

/-- A mantissa that has become too long by rounding is shifted once more, which loses nothing. -/
theorem exists_shiftToTargetExponent {r : ℕ} {e : ℤ} (hr : 2 ^ 52 ≤ r ∧ r ≤ 2 ^ 53)
    (he : -1074 ≤ e) : ∃ final d, shiftToTargetExponent Format.binary64 r e .exact = (final, d) ∧
      (2 ^ 52 ≤ final.mantissa ∧ final.mantissa < 2 ^ 53) ∧
      (final.mantissa : ℚ) * 2 ^ d = r * 2 ^ e := by
  obtain ⟨hlow, hhigh⟩ := hr
  rcases Nat.lt_or_eq_of_le hhigh with hsmall | rfl
  · have hlog : r.log2 = 52 + 0 := (Nat.log2_eq_iff (by omega)).2 ⟨hlow, hsmall⟩
    refine ⟨_, _, shiftToTargetExponent_eq hlog he, ⟨hlow, hsmall⟩, ?_⟩
    rw [Nat.cast_zero, add_zero]
    rfl
  · -- a carry into the 54th bit: all bits after it are zero
    have hlog : (2 ^ 53).log2 = 52 + 1 := by rfl
    refine ⟨_, _, shiftToTargetExponent_eq hlog he, ⟨le_refl (2 ^ 52), by decide⟩, ?_⟩
    change ((2 ^ 52 : ℕ) : ℚ) * 2 ^ (e + 1) = _
    rw [zpow_add_one₀ two_ne_zero]
    push_cast
    ring

/-- A number that is described by a long enough mantissa is rounded to 53 bits. -/
theorem roundWithAccuracy_rounds {m : ℕ} {e : ℤ} {acc : Accuracy} (hm : 2 ^ 52 ≤ m)
    (he : -1074 ≤ e) (hp : Describes (.ofMantissaAndAccuracy m acc) p) :
    ∃ v, Holds (roundWithAccuracy Format.binary64 .positive m e acc) v ∧
      Rounds (p * 2 ^ e) v := by
  -- the mantissa is shifted until it has 53 bits, and what falls off is still told by the two bits
  obtain ⟨s, hs⟩ : ∃ s, m.log2 = 52 + s :=
    Nat.exists_eq_add_of_le ((Nat.le_log2 (by omega)).2 hm)
  have hmantissa : (ExtendedMantissa.ofMantissaAndAccuracy m acc).mantissa = m := by
    unfold ExtendedMantissa.ofMantissaAndAccuracy
    split <;> rfl
  obtain ⟨hfloor, hceil⟩ := hp.mantissa_le
  rw [hmantissa] at hfloor hceil
  obtain ⟨hlow, hhigh⟩ := div_pow_bounds hs hfloor hceil
  have hshifted := hp.shiftRight s
  have hbounds := hshifted.roundedMantissa_bounds hlow hhigh
  have hrounds := hshifted.rounds hlow (e + s)
  have hscale : p / 2 ^ s * 2 ^ (e + s : ℤ) = p * 2 ^ e := by
    rw [zpow_add₀ two_ne_zero, zpow_natCast]
    field_simp
  rw [hscale] at hrounds
  -- the second shift makes up for a carry
  obtain ⟨final, d, hfinal, hfull, hvalue⟩ :=
    exists_shiftToTargetExponent (e := e + s) hbounds (by omega)
  refine ⟨_, ⟨final.mantissa, d, by omega, ?_, hfull.1, hfull.2, hvalue.symm⟩, hrounds⟩
  rw [roundWithAccuracy, shiftToTargetExponent_eq hs he]
  simp only [hfinal]
  rw [dif_neg (by omega)]

/-! ## §3 Stored doubles -/

/-- A double that is stored as this mantissa and exponent. -/
structure Stored (x : Float) (m : ℕ) (e : ℤ) : Prop where
  full : 2 ^ 52 ≤ m ∧ m < 2 ^ 53
  range : -64 ≤ e ∧ e ≤ 64
  eq : ∃ h : 0 < m, x = .ofModel (.pack (.finite .positive m e h))

variable {x y : Float} {m : ℕ} {e : ℤ}

/-- The exponent is stored with a bias, the mantissa without its first bit. -/
theorem pack_finite (hm : 2 ^ 52 ≤ m ∧ m < 2 ^ 53) (he : -64 ≤ e ∧ e ≤ 64) (h : 0 < m) :
    UnpackedFloat.pack Format.binary64 (.finite .positive m e h) =
      packComponents Format.binary64 .positive (BitVec.ofNat 11 (e + 1075).toNat)
        (BitVec.ofNat 52 m) := by
  have hlog : m.log2 = 52 := (Nat.log2_eq_iff (by omega)).2 hm
  -- the exponent is stored for the first bit of the mantissa, 52 above the last
  have hbias : (e + Format.exponentBias Format.binary64 + (52 : ℕ) : ℤ).toNat =
      (e + 1075).toNat := by
    simp only [Format.exponentBias]
    norm_num
    omega
  simp only [UnpackedFloat.pack, hbias, hlog]
  rw [if_neg (by omega), if_pos (by rfl)]

theorem toNat_biased (he : -64 ≤ e ∧ e ≤ 64) :
    (BitVec.ofNat 11 (e + 1075).toNat).toNat = (e + 1075).toNat := by
  rw [BitVec.toNat_ofNat, Nat.mod_eq_of_lt (by omega)]

/-- The exponents at both ends of the range stand for infinities and for numbers near zero. -/
theorem biased_ne (he : -64 ≤ e ∧ e ≤ 64) :
    BitVec.ofNat 11 (e + 1075).toNat ≠ -1#11 ∧ BitVec.ofNat 11 (e + 1075).toNat ≠ 0#11 := by
  have hbiased := toNat_biased he
  constructor
  · -- all ones would be 2047, which is past the range
    intro hall
    have hnat := congrArg BitVec.toNat hall
    rw [hbiased] at hnat
    change (e + 1075).toNat = 2047 at hnat
    omega
  · -- and zero is below it
    intro hnone
    have hnat := congrArg BitVec.toNat hnone
    rw [hbiased] at hnat
    change (e + 1075).toNat = 0 at hnat
    omega

theorem Stored.unpack (h : Stored x m e) :
    ∃ hm : 0 < m, x.toModel.unpack = .finite .positive m e hm := by
  obtain ⟨hm, he, hpos, rfl⟩ := h
  refine ⟨hpos, ?_⟩
  obtain ⟨hones, hzeros⟩ := biased_ne he
  -- the first bit of the mantissa, which is not stored, is put back
  have hmantissa : (1#1 ++ BitVec.ofNat 52 m).toNat = m := by
    rw [BitVec.toNat_append, ← Nat.shiftLeft_add_eq_or_of_lt (BitVec.isLt _), BitVec.toNat_ofNat]
    change 1 <<< 52 + m % 2 ^ 52 = m
    omega
  change UnpackedFloat.unpack Format.binary64
    (UnpackedFloat.pack Format.binary64 (.finite .positive m e hpos)) = _
  rw [pack_finite hm he]
  unfold UnpackedFloat.unpack
  simp only [unpackMantissa_packComponents, unpackExponent_packComponents,
    unpackSign_packComponents, if_neg hones, if_neg hzeros, toNat_biased he, hmantissa]
  congr 1
  simp only [Format.exponentBias]
  norm_num
  omega

theorem Stored.toNat_toBits (h : Stored x m e) :
    x.toBits.toNat = (e + 1075).toNat * 2 ^ 52 + (m - 2 ^ 52) := by
  obtain ⟨hm, he, hpos, rfl⟩ := h
  change (UnpackedFloat.pack Format.binary64 (.finite .positive m e hpos)).toNat = _
  rw [pack_finite hm he]
  have hmantissa : (BitVec.ofNat 52 m).toNat = m - 2 ^ 52 := by
    rw [BitVec.toNat_ofNat]
    omega
  change ((0#1 ++ BitVec.ofNat 11 (e + 1075).toNat) ++ BitVec.ofNat 52 m).toNat = _
  -- sign, exponent and mantissa stand side by side, and the sign is zero
  rw [BitVec.toNat_append, ← Nat.shiftLeft_add_eq_or_of_lt (BitVec.isLt _), hmantissa,
    BitVec.toNat_append, ← Nat.shiftLeft_add_eq_or_of_lt (BitVec.isLt _), toNat_biased he]
  simp [Nat.shiftLeft_eq]

/-! ## §4 Values and operations -/

/-- A double has this value. -/
def Is (x : Float) (v : ℚ) : Prop := ∃ (m : ℕ) (e : ℤ), Stored x m e ∧ v = m * 2 ^ e

variable {w : ℚ}

/-- What is rounded to a number of moderate size can be stored. -/
theorem is_pack {f : UnpackedFloat} (hf : Holds f v) (hv : Rounds q v) (hhalf : 1 / 2 ≤ q)
    (hlarge : q ≤ 2 ^ 64) : Is (.ofModel (.pack f)) v := by
  obtain ⟨m, e, hpos, rfl, hlow, hhigh, rfl⟩ := hf
  have herror := abs_le.1 hv.abs_sub_le
  have hunit : (0 : ℚ) < 2 ^ e := zpow_pos two_pos e
  have hlow' : (2 : ℚ) ^ 52 ≤ m := by exact_mod_cast hlow
  have hhigh' : (m : ℚ) < 2 ^ 53 := by exact_mod_cast hhigh
  refine ⟨m, e, ⟨⟨hlow, hhigh⟩, ⟨?_, ?_⟩, hpos, rfl⟩, rfl⟩
  -- a mantissa of 53 bits leaves the exponent no other room
  · by_contra hsmall
    have hle : (2 : ℚ) ^ e ≤ 2 ^ (-65 : ℤ) := zpow_le_zpow_right₀ one_le_two (by omega)
    have hvalue : (2 : ℚ) ^ (-65 : ℤ) = 1 / 2 ^ 65 := by norm_num
    rw [hvalue] at hle
    have hprod : (m : ℚ) * 2 ^ e ≤ 2 ^ 53 * (1 / 2 ^ 65) :=
      mul_le_mul hhigh'.le hle hunit.le (by positivity)
    norm_num at hprod herror
    linarith
  · by_contra hgreat
    have hle : (2 : ℚ) ^ (65 : ℤ) ≤ 2 ^ e := zpow_le_zpow_right₀ one_le_two (by omega)
    have hprod : (2 : ℚ) ^ 52 * 2 ^ (65 : ℤ) ≤ m * 2 ^ e :=
      mul_le_mul hlow' hle (by positivity) (by positivity)
    norm_num at hprod herror
    norm_num at hlarge
    linarith

/-- The mantissa of a converted number is filled up with zeros to 53 bits. -/
theorem ofUInt64_eq {n : UInt64} (hn : 0 < n.toNat) :
    UnpackedFloat.ofUInt64 Format.binary64 n =
      roundWithAccuracy Format.binary64 .positive (n.toNat * 2 ^ (52 - n.toNat.log2))
        (-(52 - n.toNat.log2 : ℕ)) .exact := by
  have hcompare : compare (n.toNat : ℤ) 0 = .gt := by
    rw [Int.compare_eq_gt]
    omega
  -- a number of up to 64 bits may be longer than a mantissa, and then it is shifted down later
  have htarget : Format.binary64.targetExponent (totalExponent n.toNat 0) =
      n.toNat.log2 - 52 := by
    simp only [Format.targetExponent, totalExponent, Format.mantissaBits, Format.minExponent]
    norm_num
    omega
  have hshift : (0 - ((n.toNat.log2 : ℤ) - 52)).toNat = 52 - n.toNat.log2 := by omega
  rw [UnpackedFloat.ofUInt64, UnpackedFloat.ofNat, UnpackedFloat.ofInt, UnpackedFloat.normalize,
    hcompare]
  simp only [Int.toNat_natCast, UnpackedFloat.round, htarget, decreaseExponent, hshift,
    Nat.shiftLeft_eq]
  rw [zero_sub]

theorem is_toFloat {n : UInt64} (hn : 0 < n.toNat) : ∃ v, Is n.toFloat v ∧ Rounds n.toNat v := by
  have hround := ofUInt64_eq hn
  have hbound : n.toNat < 2 ^ 64 := n.toNat_lt
  generalize hs : 52 - n.toNat.log2 = s at hround
  -- filled up, the number is long enough to be rounded like any other
  have hfull : 2 ^ 52 ≤ n.toNat * 2 ^ s := by
    have hself := Nat.log2_self_le (n := n.toNat) (by omega)
    calc 2 ^ 52 ≤ 2 ^ (n.toNat.log2 + s) := Nat.pow_le_pow_right two_pos (by omega)
      _ = 2 ^ n.toNat.log2 * 2 ^ s := pow_add ..
      _ ≤ n.toNat * 2 ^ s := Nat.mul_le_mul_right _ hself
  have hexact : Describes (.ofMantissaAndAccuracy (n.toNat * 2 ^ s) .exact)
      (n.toNat * 2 ^ s : ℕ) := rfl
  obtain ⟨v, hholds, hrounds⟩ := roundWithAccuracy_rounds (e := -s) hfull (by omega) hexact
  have hvalue : ((n.toNat * 2 ^ s : ℕ) : ℚ) * 2 ^ (-s : ℤ) = n.toNat := by
    rw [zpow_neg, zpow_natCast]
    push_cast
    field_simp
  rw [hvalue] at hrounds
  refine ⟨v, ?_, hrounds⟩
  have hfloat : n.toFloat = .ofModel (.pack (UnpackedFloat.ofUInt64 Format.binary64 n)) := rfl
  rw [hfloat, hround]
  apply is_pack hholds hrounds
  · have : (1 : ℚ) ≤ n.toNat := by exact_mod_cast hn
    linarith
  · exact_mod_cast hbound.le

theorem Is.mul (hx : Is x v) (hy : Is y w) (hhalf : 1 / 2 ≤ v * w) (hlarge : v * w ≤ 2 ^ 64) :
    ∃ u, Is (x * y) u ∧ Rounds (v * w) u := by
  obtain ⟨m, e, hx, rfl⟩ := hx
  obtain ⟨n, d, hy, rfl⟩ := hy
  obtain ⟨hm, hxu⟩ := hx.unpack
  obtain ⟨hn, hyu⟩ := hy.unpack
  have hfull : 2 ^ 52 ≤ m * n := by
    have := Nat.mul_le_mul_right n hx.full.1
    have := hy.full.1
    omega
  -- mantissas are multiplied whole, so only the rounding loses something
  have hexact : Describes (.ofMantissaAndAccuracy (m * n) .exact) (m * n : ℕ) := rfl
  obtain ⟨u, hholds, hrounds⟩ := roundWithAccuracy_rounds (e := e + d) hfull
    (by have := hx.range; have := hy.range; omega) hexact
  have hvalue : ((m * n : ℕ) : ℚ) * 2 ^ (e + d) = m * 2 ^ e * (n * 2 ^ d) := by
    rw [zpow_add₀ two_ne_zero]
    push_cast
    ring
  rw [hvalue] at hrounds
  refine ⟨u, ?_, hrounds⟩
  have hfloat : x * y =
      .ofModel (.pack (UnpackedFloat.mul Format.binary64 x.toModel.unpack y.toModel.unpack)) := rfl
  rw [hfloat, hxu, hyu]
  exact is_pack hholds hrounds hhalf hlarge

/-- A quotient is its whole part and a fraction, which is below one. -/
theorem natCast_div (m : ℕ) {n : ℕ} (hn : 0 < n) :
    (m : ℚ) / n = (m / n : ℕ) + (m % n : ℕ) / n ∧ ((m % n : ℕ) : ℚ) / n < 1 := by
  have hn' : (0 : ℚ) < n := by exact_mod_cast hn
  constructor
  · rw [div_eq_iff hn'.ne', add_mul, div_mul_cancel₀ _ hn'.ne', mul_comm]
    exact_mod_cast (Nat.div_add_mod m n).symm
  · rw [div_lt_one hn']
    exact_mod_cast Nat.mod_lt m hn

theorem div_lt_half_iff {m n : ℕ} (hn : 0 < n) : (m : ℚ) / n < 1 / 2 ↔ 2 * m < n := by
  rw [div_lt_div_iff₀ (by exact_mod_cast hn) two_pos, one_mul, mul_comm]
  exact_mod_cast Iff.rfl

theorem half_lt_div_iff {m n : ℕ} (hn : 0 < n) : 1 / 2 < (m : ℚ) / n ↔ n < 2 * m := by
  rw [div_lt_div_iff₀ two_pos (by exact_mod_cast hn), one_mul, mul_comm (m : ℚ)]
  exact_mod_cast Iff.rfl

/-- The remainder of a division tells how much the quotient is missing. -/
theorem describes_accuracyOfFraction {m n : ℕ} (hn : 0 < n) :
    Describes (.ofMantissaAndAccuracy (m / n) (accuracyOfFraction (m % n) n)) (m / n) := by
  obtain ⟨hsplit, hone⟩ := natCast_div m hn
  rw [hsplit, accuracyOfFraction]
  by_cases hzero : m % n = 0
  · rw [if_pos hzero, hzero]
    simp [Describes, ExtendedMantissa.ofMantissaAndAccuracy]
  · rw [if_neg hzero]
    have hpos : (0 : ℚ) < (m % n : ℕ) / n := by
      have : (0 : ℚ) < (m % n : ℕ) := by exact_mod_cast Nat.pos_of_ne_zero hzero
      positivity
    -- the remainder is compared with half of the divisor, as what is missing with a half
    cases hcompare : compare (2 * (m % n)) n with
    | lt =>
      have hless := (div_lt_half_iff hn).2 (Nat.compare_eq_lt.1 hcompare)
      exact ⟨by linarith, by linarith⟩
    | eq =>
      -- neither below a half nor above it
      have htie := Nat.compare_eq_eq.1 hcompare
      have hnotless := mt (div_lt_half_iff hn).1 htie.not_lt
      have hnotmore := mt (half_lt_div_iff hn).1 htie.not_gt
      rw [le_antisymm (not_lt.1 hnotmore) (not_lt.1 hnotless)]
      rfl
    | gt =>
      have hmore := (half_lt_div_iff hn).2 (Nat.compare_eq_gt.1 hcompare)
      exact ⟨by linarith, by linarith⟩

/-- The divided mantissa is given 53 more bits, so that the quotient has enough. -/
theorem divCore_eq {n : ℕ} {d : ℤ} (hx : Stored x m e) (hy : Stored y n d) :
    divCore Format.binary64 m e n d =
      (m * 2 ^ 53 / n, e - d - 53, accuracyOfFraction (m * 2 ^ 53 % n) n) := by
  have hxlog : m.log2 = 52 := (Nat.log2_eq_iff (by have := hx.full; omega)).2 hx.full
  have hylog : n.log2 = 52 := (Nat.log2_eq_iff (by have := hy.full; omega)).2 hy.full
  -- both mantissas have 53 bits, so the quotient is aimed at 53 bits below their exponents
  have htarget : Format.binary64.targetExponent (totalExponent m e - totalExponent n d) =
      e - d - 53 := by
    have := hx.range
    have := hy.range
    simp only [Format.targetExponent, totalExponent, Format.mantissaBits, Format.minExponent,
      hxlog, hylog]
    norm_num
    omega
  have hmin : min (e - d) (e - d - 53) = e - d - 53 := by omega
  have hshift : (e - d - (e - d - 53)).toNat = 53 := by omega
  simp only [divCore, htarget, hmin, hshift, Nat.shiftLeft_eq]

theorem Is.div (hx : Is x v) (hy : Is y w) (hhalf : 1 / 2 ≤ v / w) (hlarge : v / w ≤ 2 ^ 64) :
    ∃ u, Is (x / y) u ∧ Rounds (v / w) u := by
  obtain ⟨m, e, hx, rfl⟩ := hx
  obtain ⟨n, d, hy, rfl⟩ := hy
  obtain ⟨hm, hxu⟩ := hx.unpack
  obtain ⟨hn, hyu⟩ := hy.unpack
  -- both mantissas are within a factor of two, so the quotient has at least 53 bits
  have hfull : 2 ^ 52 ≤ m * 2 ^ 53 / n := by
    rw [Nat.le_div_iff_mul_le hn]
    have := hx.full
    have := hy.full
    omega
  obtain ⟨u, hholds, hrounds⟩ := roundWithAccuracy_rounds (e := e - d - 53) hfull
    (by have := hx.range; have := hy.range; omega) (describes_accuracyOfFraction hn)
  -- the bits that were given to the mantissa are taken off the exponent
  have hvalue : ((m * 2 ^ 53 : ℕ) : ℚ) / n * 2 ^ (e - d - 53) = m * 2 ^ e / (n * 2 ^ d) := by
    rw [zpow_sub₀ two_ne_zero, zpow_sub₀ two_ne_zero]
    push_cast
    field_simp
  rw [hvalue] at hrounds
  refine ⟨u, ?_, hrounds⟩
  have hfloat : x / y =
      .ofModel (.pack (UnpackedFloat.div Format.binary64 x.toModel.unpack y.toModel.unpack)) := rfl
  have hdiv : UnpackedFloat.div Format.binary64 (.finite .positive m e hm)
      (.finite .positive n d hn) = roundWithAccuracy Format.binary64 .positive
        (m * 2 ^ 53 / n) (e - d - 53) (accuracyOfFraction (m * 2 ^ 53 % n) n) := by
    simp only [UnpackedFloat.div, divCore_eq hx hy]
    rfl
  rw [hfloat, hxu, hyu, hdiv]
  exact is_pack hholds hrounds hhalf hlarge

theorem mul_zpow_natCast (m k : ℕ) : (m : ℚ) * 2 ^ (k : ℤ) = (m * 2 ^ k : ℕ) := by
  push_cast
  rfl

theorem mul_zpow_neg_natCast (m k : ℕ) : (m : ℚ) * 2 ^ (-(k : ℤ)) = m / (2 ^ k : ℕ) := by
  rw [zpow_neg, zpow_natCast]
  push_cast
  rfl

theorem mantissa_shiftRight (em : ExtendedMantissa) (n : ℕ) :
    (em >>> n).mantissa = em.mantissa / 2 ^ n := by
  induction n with
  | zero => simp [HShiftRight.hShiftRight, Nat.repeat]
  | succ n ih =>
    change (em >>> n).mantissa / 2 = _
    rw [ih, Nat.div_div_eq_div_mul, pow_succ]

/-- A conversion to a whole number drops the fraction. -/
theorem Is.toNat_toUInt64 (hx : Is x v) (hsmall : v < 2 ^ 64) : x.toUInt64.toNat = ⌊v⌋₊ := by
  obtain ⟨m, e, hx, rfl⟩ := hx
  obtain ⟨hm, hxu⟩ := hx.unpack
  have hmantissa : (shiftToExponent (decreaseExponent m e 0).1 (decreaseExponent m e 0).2
      .exact 0).1.mantissa = ⌊(m : ℚ) * 2 ^ e⌋₊ := by
    rw [shiftToExponent, mantissa_shiftRight]
    simp only [decreaseExponent, ExtendedMantissa.ofMantissaAndAccuracy, Nat.shiftLeft_eq]
    -- a whole number is taken as it is, of another one the bits after the point fall off
    rcases Int.le_total 0 e with he | he
    · obtain ⟨k, rfl⟩ := Int.eq_ofNat_of_zero_le he
      rw [mul_zpow_natCast, Nat.floor_natCast]
      simp
    · obtain ⟨k, rfl⟩ : ∃ k : ℕ, e = -k := ⟨e.natAbs, by omega⟩
      rw [mul_zpow_neg_natCast, Nat.floor_div_eq_div]
      simp
  have hint : x.toModel.unpack.toInt 0 (UInt64.size - 1) = (⌊(m : ℚ) * 2 ^ e⌋₊ : ℤ) := by
    rw [hxu, ← hmantissa]
    rfl
  -- no more than the greatest word, so that nothing is cut off
  have hfits : ⌊(m : ℚ) * 2 ^ e⌋₊ < UInt64.size := by
    rw [Nat.floor_lt (by positivity)]
    norm_num [UInt64.size]
    exact_mod_cast hsmall
  change (UInt64.ofNatClamp (x.toModel.unpack.toInt 0 (UInt64.size - 1)).toNat).toNat = _
  rw [hint, Int.toNat_natCast, UInt64.ofNatClamp, dif_pos hfits, UInt64.toNat_ofNatLT]

/-! ## §5 Whole numbers and tenths -/

theorem is_one : Is (Float.ofBits 0x3FF0000000000000) 1 :=
  ⟨2 ^ 52, -52, ⟨by decide, by decide, by decide, by decide +kernel⟩, by norm_num⟩

theorem is_ten : Is (Float.ofBits 0x4024000000000000) 10 :=
  ⟨10 * 2 ^ 49, -49, ⟨by decide, by decide, by decide, by decide +kernel⟩, by norm_num⟩

variable {n : ℕ}

/-- What can be written in 53 bits is converted without loss. -/
theorem is_toFloat_natCast (hpos : 0 < n) (hn : n < 2 ^ 53) : Is n.toUInt64.toFloat n := by
  have hnat : n.toUInt64.toNat = n := UInt64.toNat_ofNat_of_lt' (by change n < 2 ^ 64; omega)
  obtain ⟨v, hv, hrounds⟩ := is_toFloat (n := n.toUInt64) (by omega)
  rw [hnat] at hrounds
  rw [← hrounds.eq_natCast hn]
  exact hv

theorem half_le_natCast (hpos : 0 < n) : (1 / 2 : ℚ) ≤ n := by
  have : (1 : ℚ) ≤ n := by exact_mod_cast hpos
  linarith

theorem natCast_le (hn : n < 2 ^ 53) : (n : ℚ) ≤ 2 ^ 64 := by
  have : (n : ℚ) < (2 ^ 53 : ℕ) := by exact_mod_cast hn
  norm_num at this ⊢
  linarith

theorem is_ofNat (hpos : 0 < n) (hn : n < 2 ^ 53) : Is (Float.ofNat n) n := by
  have hfloat : Float.ofNat n = n.toUInt64.toFloat * Float.ofBits 0x3FF0000000000000 :=
    dif_pos ⟨hn, by decide⟩
  obtain ⟨u, hu, hrounds⟩ := (is_toFloat_natCast hpos hn).mul is_one
    (by rw [mul_one]; exact half_le_natCast hpos) (by rw [mul_one]; exact natCast_le hn)
  rw [mul_one] at hrounds
  rw [hfloat, ← hrounds.eq_natCast hn]
  exact hu

theorem is_ofScientific_zero (hpos : 0 < n) (hn : n < 2 ^ 53) :
    Is (Float.ofScientific n true 0) n := by
  have hfloat : Float.ofScientific n true 0 =
      n.toUInt64.toFloat / Float.ofBits 0x3FF0000000000000 :=
    dif_pos ⟨hn, by decide⟩
  obtain ⟨u, hu, hrounds⟩ := (is_toFloat_natCast hpos hn).div is_one
    (by rw [div_one]; exact half_le_natCast hpos) (by rw [div_one]; exact natCast_le hn)
  rw [div_one] at hrounds
  rw [hfloat, ← hrounds.eq_natCast hn]
  exact hu

theorem is_ofScientific_one (hpos : 10 ≤ n) (hn : n < 2 ^ 53) :
    ∃ v, Is (Float.ofScientific n true 1) v ∧ Rounds (n / 10) v := by
  have hfloat : Float.ofScientific n true 1 =
      n.toUInt64.toFloat / Float.ofBits 0x4024000000000000 :=
    dif_pos ⟨hn, by decide⟩
  have hten : (10 : ℚ) ≤ n := by exact_mod_cast hpos
  rw [hfloat]
  apply (is_toFloat_natCast (by omega) hn).div is_ten
  · rw [le_div_iff₀ (by norm_num)]
    linarith
  · have := natCast_le hn
    linarith

end Lineage.Double
