import Lineage.ByteSize.Printer
import Lineage.ByteSize.Reader
import Lineage.Proofs.Doubles
import Lineage.Proofs.Json.Token

/-!
# Byte sizes through their own text

A size is written in tenths of a unit, from a quotient of doubles, and read as a product of doubles.
Writing loses up to half a tenth, and either way doubles may lose a little more, which shows as a
byte that is missing in the end.  Whole numbers of units lose nothing, since they and their quotients
fit into doubles.

## Main statements

- `abs_tenths_sub_le`: tenths are nearest to the double that they are taken from;
- `Fits.abs_amountIn_sub_le`, `Fits.abs_ofAmount_sub_le`: what is lost in writing, and in all;
- `Fits.ofAmount_of_dvd`: whole numbers of units;
- `parse?_render`: what the written text of a size is read as.
-/

namespace Lineage.ByteSize

open Double

/-! ## §1 Tenths -/

theorem fraction_eq {x : Float} {v : ℚ} (hx : Is x v) :
    0 < (fraction x).2 ∧ ((fraction x).1 : ℚ) / (fraction x).2 = v := by
  obtain ⟨m, e, hx, rfl⟩ := hx
  obtain ⟨hlow, hhigh⟩ := hx.full
  obtain ⟨hsmall, hgreat⟩ := hx.range
  have hbit : Nat.pow 2 52 = 2 ^ 52 := rfl
  -- the bits of a double hold its exponent above the 52 stored bits of its mantissa
  have hexponent : x.toBits.toNat / Nat.pow 2 52 = (e + 1075).toNat := by
    rw [hx.toNat_toBits, hbit]
    omega
  have hmantissa : x.toBits.toNat % Nat.pow 2 52 + Nat.pow 2 52 = m := by
    rw [hx.toNat_toBits, hbit]
    omega
  unfold fraction
  simp only [hexponent, hmantissa]
  -- a negative exponent is a power of two in the denominator
  by_cases he : (e + 1075).toNat < 1075
  · obtain ⟨k, rfl⟩ : ∃ k : ℕ, e = -k := ⟨e.natAbs, by omega⟩
    have hshift : 1075 - (-(k : ℤ) + 1075).toNat = k := by omega
    rw [if_pos he, hshift]
    exact ⟨Nat.pow_pos two_pos, (mul_zpow_neg_natCast m k).symm⟩
  · obtain ⟨k, rfl⟩ := Int.eq_ofNat_of_zero_le (show 0 ≤ e by omega)
    have hshift : ((k : ℤ) + 1075).toNat - 1075 = k := by omega
    rw [if_neg he, hshift]
    refine ⟨one_pos, ?_⟩
    change ((m * 2 ^ k : ℕ) : ℚ) / (1 : ℕ) = m * 2 ^ (k : ℤ)
    rw [Nat.cast_one, div_one, mul_zpow_natCast]

/-- A rounded quotient is nearest. -/
theorem abs_roundToEven_sub_le (num : ℕ) {den : ℕ} (hden : 0 < den) :
    |(roundToEven num den : ℚ) - num / den| ≤ 1 / 2 := by
  obtain ⟨hsplit, hone⟩ := natCast_div num hden
  have hpos : (0 : ℚ) ≤ (num % den : ℕ) / den := by positivity
  -- whether the remainder is less or more than half of the denominator decides the side
  have hbelow : 2 * (num % den) ≤ den → ((num % den : ℕ) : ℚ) / den ≤ 1 / 2 := fun h =>
    not_lt.1 (mt (half_lt_div_iff hden).1 (not_lt.2 h))
  have habove : den ≤ 2 * (num % den) → 1 / 2 ≤ ((num % den : ℕ) : ℚ) / den := fun h =>
    not_lt.1 (mt (div_lt_half_iff hden).1 (not_lt.2 h))
  rw [hsplit, abs_le]
  simp only [roundToEven]
  split
  case isTrue hlt =>
    have := hbelow hlt.le
    constructor <;> linarith
  case isFalse hge =>
    split
    case isTrue hgt =>
      have := habove hgt.le
      push_cast
      constructor <;> linarith
    case isFalse hle =>
      -- a tie: up or down, both are as near
      have := hbelow (by omega)
      have := habove (by omega)
      rcases Nat.mod_two_eq_zero_or_one (num / den) with heven | hodd
      · rw [heven]
        push_cast
        constructor <;> linarith
      · rw [hodd]
        push_cast
        constructor <;> linarith

theorem abs_tenths_sub_le {x : Float} {v : ℚ} (hx : Is x v) :
    |(tenths x : ℚ) - 10 * v| ≤ 1 / 2 := by
  obtain ⟨hden, hvalue⟩ := fraction_eq hx
  have hround := abs_roundToEven_sub_le ((fraction x).1 * 10) hden
  have hten : (((fraction x).1 * 10 : ℕ) : ℚ) / (fraction x).2 = 10 * v := by
    rw [← hvalue]
    push_cast
    ring
  rw [hten] at hround
  exact hround

/-! ## §2 Amounts -/

/-- The amount in which a size is written, in tenths of a unit of `1000 ^ k` bytes. -/
def amountIn (size : ByteSize) (k : ℕ) : ℕ :=
  tenths (size.bytes.toFloat / Float.ofNat (Nat.pow 1000 k))

/-- The size that an amount of tenths of a unit is read as. -/
def ofAmount (t k : ℕ) : ByteSize :=
  ⟨(Float.ofScientific t true 1 * Float.ofNat (Nat.pow 1000 k)).toUInt64⟩

variable {size : ByteSize} {n k t : ℕ}

/-- A size and the unit that it is written in: the amount is neither below one nor great. -/
structure Fits (n k : ℕ) : Prop where
  pos : 1 ≤ k
  small : k ≤ 5
  low : 1000 ^ k ≤ n
  high : n < 1153 * 1000 ^ k

theorem pow_cast (k : ℕ) : ((Nat.pow 1000 k : ℕ) : ℚ) = 1000 ^ k := by
  change ((1000 ^ k : ℕ) : ℚ) = _
  push_cast
  rfl

theorem Fits.is_ofNat (h : Fits n k) : Is (Float.ofNat (Nat.pow 1000 k)) (1000 ^ k) := by
  rw [← pow_cast]
  apply Double.is_ofNat (Nat.pow_pos (by decide))
  calc Nat.pow 1000 k ≤ 1000 ^ 5 := Nat.pow_le_pow_right (by decide) h.small
    _ < 2 ^ 53 := by decide

theorem Fits.pow_le (h : Fits n k) : (1000 : ℚ) ≤ 1000 ^ k ∧ (1000 : ℚ) ^ k ≤ 10 ^ 15 := by
  constructor
  · calc (1000 : ℚ) = 1000 ^ 1 := (pow_one _).symm
      _ ≤ 1000 ^ k := pow_le_pow_right₀ (by norm_num) h.pos
  · calc (1000 : ℚ) ^ k ≤ 1000 ^ 5 := pow_le_pow_right₀ (by norm_num) h.small
      _ = 10 ^ 15 := by norm_num

/-- The written amount is nearest to the size but for what doubles lose. -/
theorem Fits.abs_amountIn_sub_le (h : Fits size.bytes.toNat k) :
    |(size.amountIn k : ℚ) - 10 * (size.bytes.toNat / 1000 ^ k)| ≤ 1 / 2 + 1 / 2 ^ 37 := by
  obtain ⟨hunit, hgreat⟩ := h.pow_le
  have hpos : (0 : ℚ) < 1000 ^ k := by linarith
  have hlow : (1000 : ℚ) ^ k ≤ size.bytes.toNat := by exact_mod_cast h.low
  have hhigh : (size.bytes.toNat : ℚ) < 1153 * 1000 ^ k := by exact_mod_cast h.high
  have hpositive : 0 < size.bytes.toNat := lt_of_lt_of_le (Nat.pow_pos (by decide)) h.low
  -- doubles lose twice: where the size is converted, and where it is divided by the unit
  obtain ⟨v, hv, hconverted⟩ := is_toFloat hpositive
  have hclose := abs_le.1 hconverted.abs_sub_le
  obtain ⟨x, hx, hdivided⟩ := hv.div h.is_ofNat
    (by rw [le_div_iff₀ hpos]; norm_num at hclose; linarith)
    (by rw [div_le_iff₀ hpos]; norm_num at hclose ⊢; linarith)
  rw [div_eq_mul_inv] at hdivided
  have herror := abs_le.1 (hconverted.abs_sub_mul_le hdivided (by positivity) (by positivity))
  rw [← div_eq_mul_inv] at herror
  have hratio : (size.bytes.toNat : ℚ) / 1000 ^ k ≤ 1153 := by
    rw [div_le_iff₀ hpos]
    exact hhigh.le
  -- the tenths lose up to a half on top of that
  have htenths := abs_le.1 (abs_tenths_sub_le hx)
  change |(tenths (size.bytes.toFloat / Float.ofNat (Nat.pow 1000 k)) : ℚ) - _| ≤ _
  rw [abs_le]
  norm_num at herror htenths ⊢
  constructor <;> linarith

/-- Of a whole number of tenths nothing is lost in writing. -/
theorem Fits.amountIn_eq (h : Fits size.bytes.toNat k) (ht : 10 * size.bytes.toNat = t * 1000 ^ k) :
    size.amountIn k = t := by
  have herror := h.abs_amountIn_sub_le
  have hpos : (1000 : ℚ) ^ k ≠ 0 := by positivity
  have htenths : 10 * ((size.bytes.toNat : ℚ) / 1000 ^ k) = t := by
    rw [mul_div_assoc', div_eq_iff hpos]
    exact_mod_cast ht
  rw [htenths] at herror
  -- a whole number that is less than one away is the same
  have hwhole : |((size.amountIn k : ℤ) - t : ℤ)| < 1 := by
    have hless : |(size.amountIn k : ℚ) - t| < 1 := by
      refine lt_of_le_of_lt herror ?_
      norm_num
    exact_mod_cast hless
  rw [Int.abs_lt_one_iff] at hwhole
  omega

/-- The amounts that are written. -/
theorem Fits.amountIn_bounds (h : Fits size.bytes.toNat k) :
    10 ≤ size.amountIn k ∧ size.amountIn k ≤ 11531 := by
  have hpos : (0 : ℚ) < 1000 ^ k := by positivity
  have herror := abs_le.1 h.abs_amountIn_sub_le
  have hlow : (1 : ℚ) ≤ size.bytes.toNat / 1000 ^ k := by
    rw [le_div_iff₀ hpos, one_mul]
    exact_mod_cast h.low
  have hhigh : (size.bytes.toNat : ℚ) / 1000 ^ k < 1153 := by
    rw [div_lt_iff₀ hpos]
    exact_mod_cast h.high
  norm_num at herror
  constructor
  · have : ((9 : ℕ) : ℚ) < size.amountIn k := by
      push_cast
      linarith
    have : 9 < size.amountIn k := by exact_mod_cast this
    omega
  · have : (size.amountIn k : ℚ) < (11532 : ℕ) := by
      push_cast
      linarith
    have : size.amountIn k < 11532 := by exact_mod_cast this
    omega

/-- What an amount is read as, before the fraction of a byte is dropped. -/
theorem Fits.exists_ofAmount (h : Fits n k) (hlow : 10 ≤ t) (hhigh : t ≤ 11531) :
    ∃ a u : ℚ, Rounds (t / 10) a ∧ Rounds (a * 1000 ^ k) u ∧
      (ofAmount t k).bytes.toNat = ⌊u⌋₊ := by
  obtain ⟨hunit, hgreat⟩ := h.pow_le
  have hpos : (0 : ℚ) < 1000 ^ k := by linarith
  have ht : (10 : ℚ) ≤ t := by exact_mod_cast hlow
  have ht' : (t : ℚ) ≤ 11531 := by exact_mod_cast hhigh
  -- the amount becomes a double, which is multiplied by the unit, each time rounded
  obtain ⟨a, ha, hamount⟩ := is_ofScientific_one hlow (by omega)
  have hclose := abs_le.1 hamount.abs_sub_le
  norm_num at hclose
  have ha1 : 1 / 2 ≤ a := by linarith
  have ha2 : a ≤ 1154 := by linarith
  have hlarge : a * 1000 ^ k ≤ 1154 * 10 ^ 15 :=
    mul_le_mul ha2 hgreat hpos.le (by norm_num)
  obtain ⟨u, hu, hproduct⟩ := ha.mul h.is_ofNat
    (by have := mul_le_mul ha1 hunit (by norm_num) (by linarith); linarith)
    (by norm_num at hlarge ⊢; linarith)
  refine ⟨a, u, hamount, hproduct, hu.toNat_toUInt64 ?_⟩
  have herror := abs_le.1 hproduct.abs_sub_le
  norm_num at herror hlarge ⊢
  linarith

/-- Dropping the fraction of a byte takes a number less than a byte further away. -/
theorem abs_floor_sub_lt {u : ℚ} (hu : 0 ≤ u) (v : ℚ) : |(⌊u⌋₊ : ℚ) - v| < |u - v| + 1 := by
  have hfloor := Nat.floor_le hu
  have hceil := Nat.lt_floor_add_one u
  have hnear : |(⌊u⌋₊ : ℚ) - u| < 1 := by
    rw [abs_lt]
    constructor <;> linarith
  linarith [abs_sub_le (⌊u⌋₊ : ℚ) u v]

/-- A size comes back within 51 thousandths of the unit that it was written in: half a tenth is
lost in writing, and a byte in reading. -/
theorem Fits.abs_ofAmount_sub_le (h : Fits size.bytes.toNat k) :
    1000 * |((ofAmount (size.amountIn k) k).bytes.toNat : ℤ) - size.bytes.toNat| ≤
      51 * 1000 ^ k := by
  obtain ⟨hlow, hhigh⟩ := h.amountIn_bounds
  obtain ⟨a, u, hamount, hproduct, hread⟩ := h.exists_ofAmount hlow hhigh
  obtain ⟨hunit, hgreat⟩ := h.pow_le
  have hpos : (0 : ℚ) < 1000 ^ k := by linarith
  have hwritten := abs_le.1 h.abs_amountIn_sub_le
  have herror := abs_le.1 (hamount.abs_sub_mul_le hproduct (by positivity) hpos.le)
  have ht : (size.amountIn k : ℚ) ≤ 11531 := by exact_mod_cast hhigh
  have hn : (size.bytes.toNat : ℚ) / 1000 ^ k * 1000 ^ k = size.bytes.toNat :=
    div_mul_cancel₀ _ hpos.ne'
  -- what is lost in writing, in bytes
  have hwlow := mul_le_mul_of_nonneg_right hwritten.1 hpos.le
  have hwhigh := mul_le_mul_of_nonneg_right hwritten.2 hpos.le
  have hamounts := mul_le_mul_of_nonneg_right ht hpos.le
  rw [sub_mul, mul_assoc 10, hn] at hwlow hwhigh
  norm_num at herror hwlow hwhigh
  -- and what is lost in reading: what doubles lose, and the fraction of a byte
  have hfloor := abs_floor_sub_lt (show 0 ≤ u by linarith) size.bytes.toNat
  have hclose : |u - size.bytes.toNat| ≤ 51 / 1000 * 1000 ^ k - 999 / 1000 := by
    rw [abs_le]
    constructor <;> linarith
  have hbound : 1000 * |((⌊u⌋₊ : ℤ) - size.bytes.toNat : ℤ)| < 51 * 1000 ^ k + 1 := by
    have hrational : 1000 * |(⌊u⌋₊ : ℚ) - size.bytes.toNat| < 51 * 1000 ^ k + 1 := by linarith
    exact_mod_cast hrational
  rw [hread]
  omega

/-- Of a whole number of tenths only a byte may be lost, and what doubles of this size lose. -/
theorem Fits.abs_ofAmount_sub_le_of_dvd (h : Fits size.bytes.toNat k)
    (hdvd : 1000 ^ k ∣ 10 * size.bytes.toNat) :
    2 ^ 51 * |((ofAmount (size.amountIn k) k).bytes.toNat : ℤ) - size.bytes.toNat| ≤
      2 ^ 51 + size.bytes.toNat := by
  obtain ⟨t, ht⟩ := hdvd
  rw [mul_comm (1000 ^ k)] at ht
  obtain ⟨hlow, hhigh⟩ := h.amountIn_bounds
  obtain ⟨a, u, hamount, hproduct, hread⟩ := h.exists_ofAmount hlow hhigh
  have herror := hamount.abs_sub_mul_le hproduct (by positivity) (by positivity)
  -- the written amount is the size itself
  have hsame : (size.amountIn k : ℚ) / 10 * 1000 ^ k = size.bytes.toNat := by
    have hcast : (10 : ℚ) * size.bytes.toNat = t * 1000 ^ k := by exact_mod_cast ht
    rw [h.amountIn_eq ht]
    linarith
  rw [hsame] at herror
  have hn : (0 : ℚ) ≤ size.bytes.toNat := by positivity
  have hbytes := (abs_le.1 herror).1
  norm_num at herror hbytes
  -- half a tenth is not lost here, so only the doubles and the fraction of a byte are left
  have hfloor := abs_floor_sub_lt (show 0 ≤ u by linarith) size.bytes.toNat
  have hbound : 2 ^ 51 * |((⌊u⌋₊ : ℤ) - size.bytes.toNat : ℤ)| ≤ 2 ^ 51 + size.bytes.toNat := by
    have hrational : 2 ^ 51 * |(⌊u⌋₊ : ℚ) - size.bytes.toNat| ≤ 2 ^ 51 + size.bytes.toNat := by
      norm_num
      linarith
    exact_mod_cast hrational
  rw [hread]
  exact hbound

/-- Whole numbers of units come back as they were. -/
theorem Fits.ofAmount_of_dvd (h : Fits size.bytes.toNat k) (hdvd : 1000 ^ k ∣ size.bytes.toNat) :
    ofAmount (size.amountIn k) k = size := by
  obtain ⟨j, hj⟩ := hdvd
  rw [mul_comm] at hj
  have hsmall : j < 1153 := by
    have := h.high
    rw [hj] at this
    exact lt_of_mul_lt_mul_right this (Nat.zero_le _)
  obtain ⟨hlow, hhigh⟩ := h.amountIn_bounds
  obtain ⟨a, u, hamount, hproduct, hread⟩ := h.exists_ofAmount hlow hhigh
  -- both doubles are the numbers that they stand for
  have hten : (size.amountIn k : ℚ) / 10 = j := by
    rw [h.amountIn_eq (t := 10 * j) (by rw [hj, mul_assoc])]
    push_cast
    ring
  rw [hten] at hamount
  obtain rfl := hamount.eq_natCast (by omega)
  -- a power of 1000 is one of 125, shifted to the left, so the product needs few bits
  have hshort : (j : ℚ) * 1000 ^ k = (j * 125 ^ k * 2 ^ (3 * k) : ℕ) := by
    push_cast
    rw [pow_mul, mul_assoc, ← mul_pow]
    norm_num
  rw [hshort] at hproduct
  have hbits : j * 125 ^ k < 2 ^ 53 := by
    calc j * 125 ^ k ≤ 1153 * 125 ^ 5 :=
          Nat.mul_le_mul hsmall.le (Nat.pow_le_pow_right (by decide) h.small)
      _ < 2 ^ 53 := by decide
  -- so the product is exact, and there is no fraction to drop
  rw [hproduct.eq_of_short hbits, Nat.floor_natCast] at hread
  have hbytes : (ofAmount (size.amountIn k) k).bytes = size.bytes := by
    rw [← UInt64.toNat_inj, hread, hj, pow_mul, mul_assoc, ← mul_pow]
    norm_num
  exact congrArg ByteSize.mk hbytes

/-! ## §3 Texts -/

theorem plain?_eq_none {cs : List Char} (hhead : ∀ c ∈ cs.head?, c.isDigit = true)
    (hall : cs.all Char.isDigit = false) : plain? cs = none := by
  have hdigits : digits? cs = none := by
    unfold digits?
    split
    case h_1 => rfl
    case h_2 => rw [hall, if_neg Bool.false_ne_true]
  unfold plain?
  split
  case h_1 =>
    exact absurd (hhead '+' rfl) (by decide)
  case h_2 => rw [hdigits]; rfl

/-- A text with an amount and a unit is read as their product. -/
theorem parse?_of_toList {text : String} {amount unit : List Char}
    (htext : text.toList = amount ++ ' ' :: unit) (hamount : amount.all isAmountChar = true)
    (hhead : ∀ c ∈ text.toList.head?, c.isDigit = true)
    (hunit : unit.dropWhile isBlank = unit) :
    parse? text = (amount? amount).bind fun x =>
      (unitBytes? (.ofList (unit.map lowerUnitChar))).map fun bytes =>
        ⟨(x * Float.ofNat bytes).toUInt64⟩ := by
  -- the blank keeps it from being read as a number of bytes
  have hplain : plain? text.toList = none := by
    apply plain?_eq_none hhead
    rw [htext, List.all_append, List.all_cons]
    simp [show (' '.isDigit) = false from rfl]
  have hspan : text.toList.span isAmountChar = (amount, ' ' :: unit) := by
    rw [htext]
    apply Json.span_append hamount
    rintro _ ⟨⟩
    decide
  have hblank : (' ' :: unit).dropWhile isBlank = unit := by
    rw [List.dropWhile_cons_of_pos (by decide), hunit]
  unfold parse? withUnit?
  rw [hplain, hspan]
  simp only [hblank]
  cases amount? amount with
  | none => rfl
  | some x => cases unitBytes? (.ofList (unit.map lowerUnitChar)) <;> rfl

theorem digits?_toDigits (n : ℕ) : digits? (Nat.toDigits 10 n) = some n := by
  unfold digits?
  split
  case h_1 hnil => exact absurd hnil Nat.toDigits_ne_nil
  case h_2 => rw [if_pos (Json.all_isDigit_toDigits n), Nat.ofDigitChars_ten_toDigits]

theorem amount?_toDigits (n : ℕ) :
    amount? (Nat.toDigits 10 n) = some (Float.ofScientific n true 0) := by
  have hspan : (Nat.toDigits 10 n ++ []).span Char.isDigit = (Nat.toDigits 10 n, []) :=
    Json.span_append (Json.all_isDigit_toDigits n) nofun
  rw [List.append_nil] at hspan
  unfold amount?
  rw [hspan]
  simp only [digits?_toDigits, Option.map_some]

/-- The digits of a number of tenths are those of the whole amount and one more. -/
theorem amount?_tenths (ht : 10 ≤ t) :
    amount? (Nat.toDigits 10 (t / 10) ++ '.' :: Nat.toDigits 10 (t % 10)) =
      some (Float.ofScientific t true 1) := by
  have hspan : (Nat.toDigits 10 (t / 10) ++ '.' :: Nat.toDigits 10 (t % 10)).span Char.isDigit =
      (Nat.toDigits 10 (t / 10), '.' :: Nat.toDigits 10 (t % 10)) := by
    apply Json.span_append (Json.all_isDigit_toDigits _)
    rintro _ ⟨⟩
    decide
  -- the last digit stands alone, and with those before it makes up the number of tenths
  have hlast : Nat.toDigits 10 (t % 10) = [Nat.digitChar (t % 10)] :=
    Nat.toDigits_of_lt_base (Nat.mod_lt t (by decide))
  have hdigits : Nat.toDigits 10 (t / 10) ++ Nat.toDigits 10 (t % 10) = Nat.toDigits 10 t := by
    rw [hlast, ← Nat.toDigits_of_base_le (by decide) ht]
  have hlength : (Nat.toDigits 10 (t % 10)).length = 1 := by rw [hlast, List.length_singleton]
  unfold amount?
  rw [hspan]
  simp only [Json.all_isDigit_toDigits, if_true, hdigits, digits?_toDigits, Option.map_some,
    hlength]

/-! ## §4 Written sizes -/

/-- How many steps of a thousand the unit of a size is above the byte. -/
def scale (n : ℕ) : ℕ := (unitStarts.takeWhile fun (_, start) => start ≤ n).length

/-- The bytes of the unit that a size is written in. -/
def unit (n : ℕ) : ℕ := 1000 ^ scale n

/-- A size that is read instead of another is as near to it as the written text allows. -/
structure Near (read size : ByteSize) : Prop where
  /-- Half a tenth of a unit is lost in writing, and a byte in reading. -/
  close : 1000 * |(read.bytes.toNat : ℤ) - size.bytes.toNat| ≤ 51 * unit size.bytes.toNat
  /-- Of a whole number of tenths nothing is lost in writing. -/
  tenths : unit size.bytes.toNat ∣ 10 * size.bytes.toNat →
    2 ^ 51 * |(read.bytes.toNat : ℤ) - size.bytes.toNat| ≤ 2 ^ 51 + size.bytes.toNat
  units : unit size.bytes.toNat ∣ size.bytes.toNat → read = size

/-- Where the units change, the amounts stay between 1 and 1153. -/
theorem scale_cases (n : ℕ) :
    (unitStarts.takeWhile fun (_, start) => start ≤ n) = unitStarts.take (scale n) ∧
      (n < 1000 ∧ scale n = 0 ∨ n < 1152921507377637248 ∧ Fits n (scale n) ∨
        1152921507377637248 ≤ n ∧ scale n = 6) := by
  have hstarts : ∃ k ≤ 6, (unitStarts.takeWhile fun (_, start) => start ≤ n) = unitStarts.take k ∧
      (n < 1000 ∧ k = 0 ∨ n < 1152921507377637248 ∧ Fits n k ∨
        1152921507377637248 ≤ n ∧ k = 6) := by
    -- one unit after the other, from its start to the start of the next
    rcases Nat.lt_or_ge n 1000 with h | h1
    · exact ⟨0, by decide, by simp [unitStarts, h], .inl ⟨h, rfl⟩⟩
    rcases Nat.lt_or_ge n 1048577 with h | h2
    · exact ⟨1, by decide, by simp [unitStarts, *],
        .inr (.inl ⟨by omega, by decide, by decide, by omega, by omega⟩)⟩
    rcases Nat.lt_or_ge n 1073741826 with h | h3
    · exact ⟨2, by decide, by simp [unitStarts, *],
        .inr (.inl ⟨by omega, by decide, by decide, by omega, by omega⟩)⟩
    rcases Nat.lt_or_ge n 1099511629538 with h | h4
    · exact ⟨3, by decide, by simp [unitStarts, *],
        .inr (.inl ⟨by omega, by decide, by decide, by omega, by omega⟩)⟩
    rcases Nat.lt_or_ge n 1125899909097501 with h | h5
    · exact ⟨4, by decide, by simp [unitStarts, *],
        .inr (.inl ⟨by omega, by decide, by decide, by omega, by omega⟩)⟩
    rcases Nat.lt_or_ge n 1152921507377637248 with h | h6
    · exact ⟨5, by decide, by simp [unitStarts, *],
        .inr (.inl ⟨by omega, by decide, by decide, by omega, by omega⟩)⟩
    · exact ⟨6, by decide, by simp [unitStarts, *], .inr (.inr ⟨h6, rfl⟩)⟩
  obtain ⟨k, hk, htake, hcases⟩ := hstarts
  -- the units that start below the size are as many as its scale says
  have hscale : scale n = k := by
    rw [scale, htake, List.length_take]
    exact Nat.min_eq_left hk
  rw [hscale]
  exact ⟨htake, hcases⟩

/-- A size that can be read is at least one unit of those it is written in. -/
theorem unit_le (hpos : 0 < n) (hreadable : n < 1152921507377637248) : unit n ≤ n := by
  obtain ⟨-, ⟨-, hscale⟩ | ⟨-, hfits⟩ | ⟨hgreat, -⟩⟩ := scale_cases n
  · rw [unit, hscale]
    exact hpos
  · exact hfits.low
  · omega

theorem toList_render_of_lt (hsmall : size.bytes.toNat < 1000) :
    size.render.toList = Nat.toDigits 10 size.bytes.toNat ++ [' ', 'B'] := by
  have hnone : (unitStarts.takeWhile fun (_, start) => start ≤ size.bytes.toNat) = [] := by
    simp [unitStarts, hsmall]
  unfold render
  simp only [hnone, List.getLast?_nil]
  change (Nat.repr size.bytes.toNat ++ " B").toList = _
  rw [String.toList_append, Nat.toList_repr]
  rfl

/-- A size of a thousand bytes or more is written as its amount and the letter of its unit, and
all units but the last can be read. -/
theorem exists_toList_render {k : ℕ} (hk : 1 ≤ k ∧ k ≤ 6)
    (htake : (unitStarts.takeWhile fun (_, start) => start ≤ size.bytes.toNat) =
      unitStarts.take k) :
    ∃ unit : List Char, unit.dropWhile isBlank = unit ∧
      unitBytes? (.ofList (unit.map lowerUnitChar)) = (if k = 6 then none else some (Nat.pow 1000 k)) ∧
      size.render.toList = Nat.toDigits 10 (size.amountIn k / 10) ++ '.' ::
        Nat.toDigits 10 (size.amountIn k % 10) ++ ' ' :: unit := by
  obtain ⟨hpos, hlast⟩ := hk
  have hletter : ∃ letter start, (unitStarts.take k).getLast? = some (letter, start) ∧
      [letter, 'B'].dropWhile isBlank = [letter, 'B'] ∧
      unitBytes? (.ofList ([letter, 'B'].map lowerUnitChar)) =
        (if k = 6 then none else some (Nat.pow 1000 k)) := by
    -- six letters, of which the reader knows five
    interval_cases k <;> exact ⟨_, _, rfl, rfl, by decide⟩
  obtain ⟨letter, start, hget, hblank, hunit⟩ := hletter
  refine ⟨[letter, 'B'], hblank, hunit, ?_⟩
  -- the unit is chosen by the number of starts passed, which is `k`
  have hlength : (unitStarts.take k).length = k := by
    rw [List.length_take]
    exact Nat.min_eq_left hlast
  unfold render
  simp only [htake, hget, hlength]
  change (Nat.repr (size.amountIn k / 10) ++ "." ++ Nat.repr (size.amountIn k % 10) ++ " " ++
    String.singleton letter ++ "B").toList = _
  simp [String.toList_append, Nat.toList_repr]

/-- A written amount starts with a digit, and consists of digits and a point. -/
theorem parse?_digits {text : String} {n : ℕ} {rest amount unit : List Char}
    (htext : text.toList = amount ++ ' ' :: unit) (hfirst : amount = Nat.toDigits 10 n ++ rest)
    (hrest : rest.all isAmountChar = true) (hunit : unit.dropWhile isBlank = unit) :
    parse? text = (amount? amount).bind fun x =>
      (unitBytes? (.ofList (unit.map lowerUnitChar))).map fun bytes =>
        ⟨(x * Float.ofNat bytes).toUInt64⟩ := by
  have hdigits := Json.all_isDigit_toDigits n
  apply parse?_of_toList htext _ _ hunit
  · rw [hfirst, List.all_append, hrest, Bool.and_true, List.all_eq_true]
    intro c hc
    rw [isAmountChar, List.all_eq_true.1 hdigits c hc, Bool.true_or]
  · obtain ⟨d, ds, hcons, hdigit⟩ := Json.toDigits_eq_cons n
    rw [htext, hfirst, hcons]
    rintro _ ⟨⟩
    exact hdigit

/-- What is written in bytes is read as it was. -/
theorem parse?_render_of_lt (hpos : 0 < size.bytes.toNat) (hsmall : size.bytes.toNat < 1000) :
    parse? size.render = some size := by
  have hunit : unitBytes? (.ofList (['B'].map lowerUnitChar)) = some 1 := by decide
  -- the amount is a whole number, and times one it stays what it is
  obtain ⟨u, hu, hproduct⟩ := (is_ofScientific_zero hpos (by omega)).mul
    (Double.is_ofNat one_pos (by decide))
    (by rw [Nat.cast_one, mul_one]; exact half_le_natCast hpos)
    (by rw [Nat.cast_one, mul_one]; exact natCast_le (by omega))
  rw [Nat.cast_one, mul_one] at hproduct
  obtain rfl := hproduct.eq_natCast (by omega)
  have hbytes := hu.toNat_toUInt64 (by exact_mod_cast size.bytes.toNat_lt)
  rw [Nat.floor_natCast, UInt64.toNat_inj] at hbytes
  rw [parse?_digits (toList_render_of_lt hsmall) (List.append_nil _).symm rfl rfl,
    amount?_toDigits, Option.bind_some, hunit, Option.map_some, hbytes]

/-- What is written in a unit above the byte is read as the amount in that unit. -/
theorem parse?_render_of_takeWhile {k : ℕ} (hk : 1 ≤ k ∧ k ≤ 6)
    (htake : (unitStarts.takeWhile fun (_, start) => start ≤ size.bytes.toNat) =
      unitStarts.take k) :
    parse? size.render = (amount? (Nat.toDigits 10 (size.amountIn k / 10) ++ '.' ::
      Nat.toDigits 10 (size.amountIn k % 10))).bind fun x =>
        (if k = 6 then none else some (Nat.pow 1000 k)).map fun bytes =>
          ⟨(x * Float.ofNat bytes).toUInt64⟩ := by
  obtain ⟨unit, hblank, hunit, hrender⟩ := exists_toList_render hk htake
  -- digits and a point are all taken for the amount, and the blank ends it
  have hrest : ('.' :: Nat.toDigits 10 (size.amountIn k % 10)).all isAmountChar = true := by
    rw [List.all_cons, List.all_eq_true.2, Bool.and_true]
    · decide
    · intro c hc
      rw [isAmountChar, List.all_eq_true.1 (Json.all_isDigit_toDigits _) c hc, Bool.true_or]
  rw [parse?_digits hrender rfl hrest hblank, hunit]

theorem near_refl (size : ByteSize) : size.Near size where
  close := by
    rw [sub_self, abs_zero, mul_zero]
    positivity
  tenths _ := by
    rw [sub_self, abs_zero, mul_zero]
    positivity
  units _ := rfl

theorem Fits.near (h : Fits size.bytes.toNat (scale size.bytes.toNat)) :
    (ofAmount (size.amountIn (scale size.bytes.toNat)) (scale size.bytes.toNat)).Near size where
  close := by
    have hbound := h.abs_ofAmount_sub_le
    rw [unit]
    exact_mod_cast hbound
  tenths := h.abs_ofAmount_sub_le_of_dvd
  units := h.ofAmount_of_dvd

/-- A size comes back, but for what is lost of an amount in tenths of a unit, unless it is so great
that it is written in the unit that is not read. -/
theorem parse?_render (size : ByteSize) (hpos : 0 < size.bytes.toNat) :
    (size.bytes.toNat < 1152921507377637248 →
      ∃ read : ByteSize, parse? size.render = some read ∧ read.Near size) ∧
    (1152921507377637248 ≤ size.bytes.toNat → parse? size.render = none) := by
  obtain ⟨htake, ⟨hsmall, hscale⟩ | ⟨hreadable, hfits⟩ | ⟨hgreat, hscale⟩⟩ :=
    scale_cases size.bytes.toNat
  · exact ⟨fun _ => ⟨size, parse?_render_of_lt hpos hsmall, near_refl size⟩,
      fun hgreat => by omega⟩
  · refine ⟨fun _ => ⟨_, ?_, hfits.near⟩, fun hgreat => by omega⟩
    have hlast := hfits.small
    rw [parse?_render_of_takeWhile ⟨hfits.pos, by omega⟩ htake,
      amount?_tenths hfits.amountIn_bounds.1, if_neg (by omega)]
    rfl
  · refine ⟨fun hreadable => by omega, fun _ => ?_⟩
    rw [hscale] at htake
    rw [parse?_render_of_takeWhile ⟨by decide, by decide⟩ htake, if_pos rfl]
    simp only [Option.map_none, Option.bind_fun_none]

end Lineage.ByteSize
