import Mathlib.Data.Nat.Cast.Order.Field
import Mathlib.Tactic.Linarith
import DeskCalculator.Proofs.Decimal.Rounded

/-!
# Patterns and the numbers they stand for

A pattern of 64 bits is a sign, an exponent and a fraction, and `patternValue` says what number that is. Numbers
and patterns are in one to one correspondence: `ofBits_toBits` and `toBits_ofBits`, signs and payloads of NaNs
included.
-/

namespace DeskCalculator

-- Powers mean the same whatever else is imported.
attribute [local instance (high)] instPowNat

namespace Binary64

/-! ## The numbers that patterns stand for -/

def exponentField (bits : UInt64) : Nat := bits.toNat / 2 ^ 52 % 2 ^ 11

def fractionField (bits : UInt64) : Nat := bits.toNat % 2 ^ 52

/-- The size of the number that a pattern stands for. Without an exponent there is no leading bit. -/
def patternSize (bits : UInt64) : ℚ :=
  if exponentField bits = 0 then fractionField bits * (2 : ℚ) ^ (-1074 : Int)
  else (2 ^ 52 + fractionField bits : Nat) * (2 : ℚ) ^ ((exponentField bits : Int) - 1075)

/-- The number that a pattern stands for. The patterns of the largest exponent, infinities and NaNs, stand for
none. -/
def patternValue (bits : UInt64) : Option ℚ :=
  if exponentField bits = 2047 then none
  else some (if 2 ^ 63 ≤ bits.toNat then -patternSize bits else patternSize bits)

/-- The number itself. -/
def toRat? : Binary64 → Option ℚ
  | .finite negative units _ => some (if negative then -(units / unitsPerOne : ℚ) else units / unitsPerOne)
  | _ => none

theorem signed_mul (negative : Bool) (a b : Nat) : signed negative (a * b) = signed negative a * b := by
  cases negative <;> simp [signed]

theorem signed_natAbs (n : Int) : signed (n < 0) n.natAbs = n := by
  simp only [signed, decide_eq_true_eq]
  split <;> omega

theorem toRat?_finite (negative : Bool) {units : Nat} (h : Representable units) :
    (finite negative units h).toRat? = some ((signed negative units : ℚ) / unitsPerOne) := by
  cases negative with
  | false => rfl
  | true => rw [toRat?, if_pos rfl, signed, if_pos rfl, Int.cast_neg, neg_div, Int.cast_natCast]

theorem unitsPerOne_pos : 0 < unitsPerOne := Nat.two_pow_pos unitPlaces

theorem cast_unitsPerOne_ne_zero : (unitsPerOne : ℚ) ≠ 0 := Nat.cast_ne_zero.mpr unitsPerOne_pos.ne'

theorem nearestUnits_self {units : Nat} (h : Representable units) : nearestUnits units 1 = units := by
  rcases Nat.eq_zero_or_pos units with rfl | hpos
  · rfl
  · apply nearestUnits_eq h Nat.one_pos <;> omega

theorem representable_significand {m k : Nat} (lo : k = 0 ∨ 2 ^ fractionBits ≤ m)
    (hm : m < 2 ^ (fractionBits + 1)) (hk : fractionBits + 1 + k ≤ 1024 + unitPlaces) :
    Representable (m * 2 ^ k) := by
  refine ⟨dvd_mul_two_pow lo (Nat.le_of_lt hm), ?_⟩
  have hlt : m * 2 ^ k < 2 ^ (fractionBits + 1 + k) := by
    rw [Nat.pow_add]
    exact Nat.mul_lt_mul_of_pos_right hm (Nat.two_pow_pos k)
  exact Nat.lt_of_lt_of_le hlt (Nat.pow_le_pow_right (by decide) hk)

theorem units_subnormal (n : Nat) : (n / unitsPerOne : ℚ) = n * (2 : ℚ) ^ (-1074 : Int) := by
  rw [Decimal.cast_unitsPerOne, zpow_neg, zpow_ofNat, div_eq_mul_inv]

theorem units_normal (n : Nat) {e : Nat} (he : e ≠ 0) :
    ((n * 2 ^ (e - 1) : Nat) / unitsPerOne : ℚ) = n * (2 : ℚ) ^ ((e : Int) - 1075) := by
  obtain ⟨e, rfl⟩ := Nat.exists_eq_succ_of_ne_zero he
  have hexp : ((e.succ : Nat) : Int) - 1075 = e - 1074 := by omega
  rw [Nat.succ_sub_one, hexp, zpow_sub₀ two_ne_zero, zpow_natCast, zpow_ofNat, Decimal.cast_unitsPerOne, Nat.cast_mul,
    Nat.cast_pow, Nat.cast_ofNat, mul_div_assoc]

/-- A pattern is read without rounding: the number it stands for has a count of units of its own. -/
theorem ofBits_cases (bits : UInt64) :
    (exponentField bits = 2047 ∧ fractionField bits = 0 ∧ ofBits bits = .infinity (2 ^ 63 ≤ bits.toNat)) ∨
      (exponentField bits = 2047 ∧ ∃ h, ofBits bits = .nan (2 ^ 63 ≤ bits.toNat) (fractionField bits) h) ∨
      (exponentField bits = 0 ∧ ∃ h, ofBits bits = .finite (2 ^ 63 ≤ bits.toNat) (fractionField bits) h) ∨
      (exponentField bits ≠ 0 ∧ exponentField bits < 2047 ∧ ∃ h, ofBits bits =
        .finite (2 ^ 63 ≤ bits.toNat) ((2 ^ 52 + fractionField bits) * 2 ^ (exponentField bits - 1)) h) := by
  have hfraction : fractionField bits < 2 ^ 52 := Nat.mod_lt _ (Nat.two_pow_pos _)
  have hexponent : exponentField bits < 2 ^ 11 := Nat.mod_lt _ (Nat.two_pow_pos _)
  by_cases hlarge : exponentField bits = 2047
  · by_cases hf : fractionField bits = 0
    · exact .inl ⟨hlarge, hf, (if_pos hlarge).trans (dif_pos hf)⟩
    · exact .inr (.inl ⟨hlarge, ⟨Nat.pos_of_ne_zero hf, hfraction⟩, (if_pos hlarge).trans (dif_neg hf)⟩)
  by_cases hzero : exponentField bits = 0
  · have hr : Representable (fractionField bits) := by
      have := representable_significand (k := 0) (.inl rfl) (Nat.lt_trans hfraction (by decide)) (by decide)
      rwa [Nat.pow_zero, Nat.mul_one] at this
    refine .inr (.inr (.inl ⟨hzero, hr, ?_⟩))
    exact (if_neg hlarge).trans ((if_pos hzero).trans (ofRatio_eq (nearestUnits_self hr) hr))
  · have hr : Representable ((2 ^ 52 + fractionField bits) * 2 ^ (exponentField bits - 1)) := by
      apply representable_significand
      · exact .inr (Nat.le_add_right _ _)
      · simp only [fractionBits]
        omega
      · simp only [fractionBits, unitPlaces]
        omega
    refine .inr (.inr (.inr ⟨hzero, by omega, hr, ?_⟩))
    exact (if_neg hlarge).trans ((if_neg hzero).trans (ofRatio_eq (nearestUnits_self hr) hr))

theorem toRat?_ofBits (bits : UInt64) : (ofBits bits).toRat? = patternValue bits := by
  unfold patternValue patternSize
  rcases ofBits_cases bits with ⟨he, -, h⟩ | ⟨he, _, h⟩ | ⟨he, _, h⟩ | ⟨he, hlt, _, h⟩
  · rw [h, if_pos he]
    rfl
  · rw [h, if_pos he]
    rfl
  · rw [h, if_neg (by omega), if_pos he, ← units_subnormal]
    simp only [toRat?, decide_eq_true_eq]
  · rw [h, if_neg (by omega), if_neg he, ← units_normal _ he]
    simp only [toRat?, decide_eq_true_eq]

/-! ## The patterns of numbers -/

theorem magnitudeBits_significand {m k : Nat} (lo : k = 0 ∨ 2 ^ fractionBits ≤ m) (hm : m < 2 ^ (fractionBits + 1)) :
    magnitudeBits (m * 2 ^ k) = k * 2 ^ fractionBits + m := by
  have hspacing : spacing (m * 2 ^ k) = k := by
    rcases lo with rfl | lo
    · rw [Nat.pow_zero, Nat.mul_one]
      exact spacing_of_lt hm
    · apply spacing_eq
      · rw [Nat.pow_add]
        exact Nat.mul_le_mul_right _ lo
      · rw [Nat.pow_add]
        exact Nat.mul_lt_mul_of_pos_right hm (Nat.two_pow_pos k)
  rw [magnitudeBits, hspacing, Nat.mul_div_cancel _ (Nat.two_pow_pos k)]

/-- A count is a significand of at most 53 bits, all of them in use unless it is subnormal. -/
theorem exists_significand {units : Nat} (h : Representable units) : ∃ m k, units = m * 2 ^ k ∧
    (k = 0 ∨ 2 ^ fractionBits ≤ m) ∧ m < 2 ^ (fractionBits + 1) ∧ k ≤ 2045 := by
  obtain ⟨m, hm⟩ := h.1
  have hpos := Nat.two_pow_pos (spacing units)
  have hlt := lt_two_pow_spacing units
  have hk : spacing units ≤ 2045 := by
    by_cases hu : units = 0
    · simp [spacing, hu]
    · have := (Nat.log2_lt hu).mpr h.2
      simp only [spacing, fractionBits, unitPlaces] at this ⊢
      omega
  refine ⟨m, spacing units, by rw [Nat.mul_comm]; exact hm, ?_, ?_, hk⟩
  · by_cases h0 : spacing units = 0
    · exact .inl h0
    · have := two_pow_spacing_le units h0
      generalize 2 ^ spacing units = step at *
      rw [hm, Nat.mul_comm step] at this
      exact .inr (Nat.le_of_mul_le_mul_right this hpos)
  · generalize 2 ^ spacing units = step at *
    rw [hm, Nat.mul_comm step] at hlt
    exact Nat.lt_of_mul_lt_mul_right hlt

theorem magnitude_lt (value : Binary64) : value.magnitude < 2 ^ 63 := by
  cases value with
  | nan negative payload h =>
    have := h.2
    simp only [magnitude, largestExponent, exponentBits, fractionBits] at *
    omega
  | infinity negative => exact (by decide : 2047 * 2 ^ 52 < 2 ^ 63)
  | finite negative units h =>
    obtain ⟨m, k, rfl, lo, hm, hk⟩ := exists_significand h
    rw [magnitude, magnitudeBits_significand lo hm]
    simp only [fractionBits] at *
    omega

theorem toNat_toBits (value : Binary64) :
    value.toBits.toNat = (if value.isNegative then 2 ^ 63 else 0) + value.magnitude := by
  have := value.magnitude_lt
  rw [toBits, UInt64.toNat_ofNat']
  apply Nat.mod_eq_of_lt
  simp only [exponentBits, fractionBits]
  split <;> omega

/-- The pattern of a number is read off its sign and its magnitude. -/
theorem toBits_eq {value : Binary64} {bits : UInt64} (hs : value.isNegative = decide (2 ^ 63 ≤ bits.toNat))
    (hm : value.magnitude = exponentField bits * 2 ^ 52 + fractionField bits) : value.toBits = bits := by
  have hlt := bits.toNat_lt
  rw [← UInt64.toNat_inj, toNat_toBits, hs, hm]
  simp only [decide_eq_true_eq, exponentField, fractionField]
  split <;> omega

theorem toBits_ofBits (bits : UInt64) : (ofBits bits).toBits = bits := by
  have hfraction : fractionField bits < 2 ^ 52 := Nat.mod_lt _ (Nat.two_pow_pos _)
  rcases ofBits_cases bits with ⟨he, hf, h⟩ | ⟨he, _, h⟩ | ⟨he, _, h⟩ | ⟨he, hlt, _, h⟩
  · rw [h]
    exact toBits_eq rfl (by rw [he, hf]; rfl)
  · rw [h]
    exact toBits_eq rfl (by rw [he]; rfl)
  · rw [h]
    refine toBits_eq rfl ?_
    have := magnitudeBits_significand (k := 0) (.inl rfl) (Nat.lt_trans hfraction (by decide))
    rw [Nat.pow_zero, Nat.mul_one] at this
    rw [magnitude, this, he]
  · rw [h]
    refine toBits_eq rfl ?_
    rw [magnitude, magnitudeBits_significand (.inr (Nat.le_add_right _ _)) (by simp only [fractionBits]; omega)]
    simp only [fractionBits]
    omega

theorem finite_congr {negative negative' : Bool} {units units' : Nat} {h : Representable units}
    {h' : Representable units'} (hn : negative = negative') (hu : units = units') :
    finite negative units h = finite negative' units' h' := by
  subst hn hu
  rfl

section
variable (value : Binary64)

theorem sign_toBits : decide (2 ^ 63 ≤ value.toBits.toNat) = value.isNegative := by
  have hlt := value.magnitude_lt
  rw [toNat_toBits]
  cases value.isNegative
  · simp only [Bool.false_eq_true, if_false, decide_eq_false_iff_not]
    omega
  · simp

theorem exponentField_toBits : exponentField value.toBits = value.magnitude / 2 ^ 52 := by
  have hlt := value.magnitude_lt
  rw [exponentField, toNat_toBits]
  split <;> omega

theorem fractionField_toBits : fractionField value.toBits = value.magnitude % 2 ^ 52 := by
  have hlt := value.magnitude_lt
  rw [fractionField, toNat_toBits]
  split <;> omega

end

theorem ofBits_toBits (value : Binary64) : ofBits value.toBits = value := by
  have hs := value.sign_toBits
  have he := value.exponentField_toBits
  have hf := value.fractionField_toBits
  have hcases := ofBits_cases value.toBits
  rw [he, hf, hs] at hcases
  cases value with
  | nan negative payload h =>
    have := h.1
    have := h.2
    simp only [magnitude, largestExponent, exponentBits, fractionBits] at *
    rcases hcases with ⟨-, h0, -⟩ | ⟨-, _, hb⟩ | ⟨h0, -⟩ | ⟨-, h0, -⟩
    · omega
    · rw [hb]
      congr 1
      omega
    · omega
    · omega
  | infinity negative =>
    rw [show (infinity negative).magnitude = 2047 * 2 ^ 52 from rfl] at hcases
    rcases hcases with ⟨-, -, hb⟩ | ⟨-, h0, -⟩ | ⟨h0, -⟩ | ⟨-, h0, -⟩
    · exact hb
    · exact absurd h0.1 (by decide)
    · exact absurd h0 (by decide)
    · exact absurd h0 (by decide)
  | finite negative units h =>
    obtain ⟨m, k, rfl, lo, hm, hk⟩ := exists_significand h
    rw [magnitude, magnitudeBits_significand lo hm] at hcases
    simp only [fractionBits] at *
    rcases hcases with ⟨h0, -⟩ | ⟨h0, -⟩ | ⟨h0, _, hb⟩ | ⟨h0, -, _, hb⟩
    · omega
    · omega
    · rw [hb]
      obtain rfl : k = 0 := by omega
      exact finite_congr rfl (by omega)
    · rw [hb]
      -- Without a leading bit there would be no exponent.
      have hlo : 2 ^ 52 ≤ m := by omega
      refine finite_congr rfl ?_
      rw [show (k * 2 ^ 52 + m) / 2 ^ 52 - 1 = k by omega, show 2 ^ 52 + (k * 2 ^ 52 + m) % 2 ^ 52 = m by omega]

theorem toBits_injective {x y : Binary64} (h : x.toBits = y.toBits) : x = y := by
  rw [← ofBits_toBits x, h, ofBits_toBits]

end Binary64

end DeskCalculator
