import Mathlib.Algebra.Order.Field.Basic
import Mathlib.Tactic.Linarith
import DeskCalculator.Proofs.Binary64.Whole
import DeskCalculator.Proofs.Decimal.Literals

/-!
# Rounding to digits and back

A decimal of so many significant digits misses the number that was rounded to it by at most half a unit of its last
digit. With 17 digits that is little enough for the number to be the binary64 number nearest to the decimal.
-/

namespace DeskCalculator

-- Powers mean the same whatever else is imported.
attribute [local instance (high)] instPowNat

/-! ## The leading digit -/

theorem lt_ten_pow_digitCount (n : Nat) : n < 10 ^ digitCount n := by
  unfold digitCount
  split
  · simp [*]
  · have hpos : 0 < (Nat.toDigits 10 n).length := List.length_pos_of_ne_nil Nat.toDigits_ne_nil
    exact (Nat.length_toDigits_le_iff (by omega) hpos).mp (Nat.le_refl _)

theorem ten_pow_digitCount_le {n : Nat} (hn : 0 < n) : 10 ^ (digitCount n - 1) ≤ n := by
  apply Nat.le_of_not_lt
  intro hlt
  have hcount : digitCount n = (Nat.toDigits 10 n).length := if_neg (by omega)
  by_cases hone : digitCount n = 1
  · simp [hone] at hlt
    omega
  · have hpos : 0 < (Nat.toDigits 10 n).length := List.length_pos_of_ne_nil Nat.toDigits_ne_nil
    have := (Nat.length_toDigits_le_iff (by omega) (by omega)).mpr hlt
    omega

theorem digitCount_pos {n : Nat} (hn : 0 < n) : 0 < digitCount n := by
  have := lt_ten_pow_digitCount n
  apply Nat.pos_of_ne_zero
  intro h
  rw [h, Nat.pow_zero] at this
  omega

theorem exists_digitCount_div {a b : Nat} (hb : 0 < b) (h : b ≤ a) :
    ∃ k, digitCount (a / b) = k + 1 ∧ 10 ^ k * b ≤ a ∧ a < 10 ^ (k + 1) * b := by
  have hq : 0 < a / b := Nat.div_pos h hb
  obtain ⟨k, hk⟩ := Nat.exists_eq_succ_of_ne_zero (Nat.ne_of_gt (digitCount_pos hq))
  have hlo := (Nat.le_div_iff_mul_le hb).mp (ten_pow_digitCount_le hq)
  have hhi := (Nat.div_lt_iff_lt_mul hb).mp (lt_ten_pow_digitCount (a / b))
  rw [hk] at hlo hhi
  exact ⟨k, hk, hlo, hhi⟩

theorem ten_zpow_eq (e : Int) : (10 : ℚ) ^ e = (10 ^ e.toNat : Nat) / (10 ^ (-e).toNat : Nat) := by
  rcases Int.le_total 0 e with h | h
  · obtain ⟨k, rfl⟩ := Int.eq_ofNat_of_zero_le h
    simp
  · obtain ⟨k, hk⟩ := Int.eq_ofNat_of_zero_le (Int.neg_nonneg.mpr h)
    obtain rfl : e = -k := by omega
    simp [Int.toNat_of_nonpos h]

namespace Decimal

theorem leadingExponent_spec {num den : Nat} (hn : 0 < num) (hd : 0 < den) :
    (10 : ℚ) ^ leadingExponent num den ≤ num / den ∧ (num / den : ℚ) < 10 ^ (leadingExponent num den + 1) := by
  have hd' : (0 : ℚ) < den := by exact_mod_cast hd
  unfold leadingExponent
  by_cases hle : den ≤ num
  · obtain ⟨k, hk, hlo, hhi⟩ := exists_digitCount_div hd hle
    rw [if_pos hle, le_div_iff₀ hd', div_lt_iff₀ hd', hk, Nat.cast_add_one, add_sub_cancel_right]
    exact ⟨by exact_mod_cast hlo, by exact_mod_cast hhi⟩
  · obtain ⟨k, hk, hlo, hhi⟩ := exists_digitCount_div hn (show num ≤ den - 1 by omega)
    have hlo' : 10 ^ k * num < den := by omega
    have hhi' : den ≤ 10 ^ (k + 1) * num := by omega
    rw [if_neg hle, le_div_iff₀ hd', div_lt_iff₀ hd', hk, Nat.cast_add_one, show -((k : Int) + 1) + 1 = -(k : Int) by ring]
    rw [zpow_neg, zpow_neg, inv_mul_le_iff₀ (by positivity), lt_inv_mul_iff₀ (by positivity)]
    exact ⟨by exact_mod_cast hhi', by exact_mod_cast hlo'⟩

theorem div_eq_scaled (num den : Nat) (e : Int) :
    (num / den : ℚ) / 10 ^ e = (num * 10 ^ (-e).toNat : Nat) / (den * 10 ^ e.toNat : Nat) := by
  rw [ten_zpow_eq]
  push_cast
  field_simp

/-- The number of units of the last digit that a quotient is rounded to. Only a carry gives it one digit more. -/
theorem rounded_cases (precision : Nat) {num den : Nat} (hp : 0 < precision) (hn : 0 < num) (hd : 0 < den) :
    ∃ (n : Nat) (e : Int), NearestWhole n (num / den / 10 ^ e : ℚ) ∧ (10 : ℚ) ^ (precision - 1) ≤ num / den / 10 ^ e ∧
      (num / den / 10 ^ e : ℚ) ≤ 10 ^ precision ∧
      rounded precision num den = if n = 10 ^ precision then ⟨10 ^ (precision - 1), e + 1⟩ else ⟨n, e⟩ := by
  obtain ⟨hlo, hhi⟩ := leadingExponent_spec hn hd
  obtain ⟨p, rfl⟩ := Nat.exists_eq_succ_of_ne_zero (Nat.ne_of_gt hp)
  have he : leadingExponent num den = p + (leadingExponent num den - p) := by omega
  simp only [rounded, Nat.succ_eq_add_one, Nat.add_sub_cancel, Nat.cast_add_one, add_sub_cancel_right]
  generalize leadingExponent num den - p = e at he ⊢
  have hten : (0 : ℚ) < 10 ^ e := by positivity
  refine ⟨nearestNat (num * 10 ^ (-e).toNat) (den * 10 ^ e.toNat), e, ?_, ?_, ?_, rfl⟩
  · rw [div_eq_scaled]
    exact nearestWhole_nearestNat _ (Nat.mul_pos hd (Nat.pow_pos (by omega)))
  · rw [he, zpow_add₀ (by norm_num), zpow_natCast] at hlo
    exact (le_div_iff₀ hten).mpr hlo
  · rw [he, add_right_comm, ← Nat.cast_add_one, zpow_add₀ (by norm_num), zpow_natCast] at hhi
    exact (div_le_iff₀ hten).mpr hhi.le

theorem toRat_carry {p n : Nat} (hp : 0 < p) (e : Int) :
    toRat (if n = 10 ^ p then ⟨10 ^ (p - 1), e + 1⟩ else ⟨n, e⟩) = n * 10 ^ e := by
  obtain ⟨p, rfl⟩ := Nat.exists_eq_succ_of_ne_zero (Nat.ne_of_gt hp)
  split
  · next hn =>
    rw [toRat, hn, zpow_add₀ (by norm_num)]
    push_cast
    simp only [Nat.succ_eq_add_one]
    ring
  · rfl

theorem abs_mul_sub (n : ℚ) {e : Int} (x : ℚ) : |n * 10 ^ e - x| = |n - x / 10 ^ e| * 10 ^ e := by
  have hten : (0 : ℚ) < 10 ^ e := by positivity
  rw [← abs_of_pos hten, ← abs_mul, sub_mul, abs_of_pos hten, div_mul_cancel₀ _ hten.ne']

/-- The rounded decimal has all its digits, and is off by half a unit of the last one at most. -/
theorem rounded_spec (precision : Nat) {num den : Nat} (hp : 0 < precision) (hn : 0 < num) (hd : 0 < den) :
    10 ^ (precision - 1) ≤ (rounded precision num den).coefficient ∧
      2 * |(rounded precision num den).toRat - num / den| ≤ 10 ^ (rounded precision num den).exponent := by
  obtain ⟨n, e, hnear, hlo, -, hr⟩ := rounded_cases precision hp hn hd
  have hoff : 2 * |(rounded precision num den).toRat - num / den| ≤ 10 ^ e := by
    rw [hr, toRat_carry hp, abs_mul_sub, ← mul_assoc]
    exact mul_le_of_le_one_left (by positivity) hnear.off
  rw [hr] at hoff ⊢
  split_ifs at hoff ⊢
  · exact ⟨Nat.le_refl _, hoff.trans (zpow_le_zpow_right₀ (by norm_num) (Int.le_add_one (Int.le_refl e)))⟩
  · exact ⟨le_of_near hnear.off (by exact_mod_cast hlo), hoff⟩

/-! ## Nearest number -/

theorem toRat_nonneg (d : Decimal) : 0 ≤ d.toRat := by
  unfold toRat
  positivity

theorem toRat_lt (d : Decimal) : d.toRat < 10 ^ (digitCount d.coefficient + d.exponent) := by
  have h : (d.coefficient : ℚ) < 10 ^ digitCount d.coefficient := by exact_mod_cast lt_ten_pow_digitCount d.coefficient
  rw [zpow_add₀ (by norm_num), zpow_natCast]
  exact mul_lt_mul_of_pos_right h (by positivity)

theorem le_toRat {d : Decimal} (h : 0 < d.coefficient) :
    10 ^ (digitCount d.coefficient + d.exponent - 1) ≤ d.toRat := by
  have hle : (10 : ℚ) ^ (digitCount d.coefficient - 1) ≤ d.coefficient := by
    exact_mod_cast ten_pow_digitCount_le h
  have hcount := digitCount_pos h
  rw [show (digitCount d.coefficient + d.exponent - 1 : Int) = (digitCount d.coefficient - 1 : Nat) + d.exponent by omega,
    zpow_add₀ (by norm_num), zpow_natCast]
  exact mul_le_mul_of_nonneg_right hle (by positivity)

theorem toRat_mul (d : Decimal) (n : Nat) :
    d.toRat * n = (d.coefficient * 10 ^ d.exponent.toNat * n : Nat) / (10 ^ (-d.exponent).toNat : Nat) := by
  rw [toRat, ten_zpow_eq]
  push_cast
  ring

theorem cast_unitsPerOne : (unitsPerOne : ℚ) = 2 ^ 1074 := by
  rw [unitsPerOne, Nat.cast_pow, Nat.cast_ofNat]

theorem coefficient_pos {d : Decimal} {scale : ℚ} (h : 0 < d.toRat * scale) : 0 < d.coefficient := by
  apply Nat.pos_of_ne_zero
  intro hc
  simp [toRat, hc] at h

theorem two_pow_le_ten_pow : (2 : ℚ) ^ 126 * 2 ^ 1074 ≤ 10 ^ 400 := by
  rw [← pow_add, show 126 + 1074 = 3 * 400 by rfl, pow_mul]
  exact pow_le_pow_left₀ (by norm_num) (by norm_num) 400

theorem neg_le_size {d : Decimal} (lo : 1 / 2 < d.toRat * unitsPerOne) : -400 ≤ digitCount d.coefficient + d.exponent := by
  rw [cast_unitsPerOne] at lo
  apply Int.not_lt.mp
  intro hsize
  have hsmall := d.toRat_lt.trans_le (zpow_le_zpow_right₀ (by norm_num) hsize.le)
  rw [zpow_neg, zpow_ofNat, ← one_div, lt_div_iff₀ (by positivity)] at hsmall
  have hpos : 0 < d.toRat := pos_of_mul_pos_left (lt_trans (by norm_num) lo) (by positivity)
  have hscaled := (mul_le_mul_of_nonneg_left two_pow_le_ten_pow hpos.le).trans_lt hsmall
  rw [mul_left_comm] at hscaled
  generalize d.toRat * 2 ^ 1074 = scaled at lo hscaled
  linarith only [lo, hscaled]

theorem size_le {d : Decimal} (h : 0 < d.coefficient) (hi : d.toRat * unitsPerOne < 2 * unitLimit) :
    digitCount d.coefficient + d.exponent ≤ 400 := by
  rw [cast_unitsPerOne] at hi
  have hlimit : (unitLimit : ℚ) = 2 ^ 1024 * 2 ^ 1074 := by
    rw [← pow_add, unitLimit]
    push_cast
    rfl
  rw [hlimit, ← mul_assoc] at hi
  have hhi := lt_of_mul_lt_mul_right hi (by positivity)
  apply Int.not_lt.mp
  intro hsize
  have hlarge := zpow_le_zpow_right₀ (a := (10 : ℚ)) (by norm_num) (Int.le_sub_one_of_lt hsize)
  rw [zpow_ofNat] at hlarge
  have hpow : (2 : ℚ) * 2 ^ 1024 ≤ 2 ^ 126 * 2 ^ 1074 := by
    rw [← pow_succ', ← pow_add]
    exact pow_le_pow_right₀ (by norm_num) (by norm_num)
  exact absurd ((hlarge.trans (le_toRat h)).trans_lt hhi) (not_lt.mpr (hpow.trans two_pow_le_ten_pow))

/-- Decimals of the size of binary64 numbers are rounded like any others. -/
theorem size_mem {d : Decimal} (lo : 1 / 2 < d.toRat * unitsPerOne) (hi : d.toRat * unitsPerOne < 2 * unitLimit) :
    -400 ≤ digitCount d.coefficient + d.exponent ∧ digitCount d.coefficient + d.exponent ≤ 400 :=
  ⟨neg_le_size lo, size_le (coefficient_pos (lt_trans (by norm_num) lo)) hi⟩

theorem nearestUnits_of_close {units num den : Nat} (hr : Representable units) (hd : 0 < den)
    (h : 2 ^ 54 * |(num / den : ℚ) - units| < units) : nearestUnits num den = units := by
  have hd' : (0 : ℚ) < den := by exact_mod_cast hd
  obtain ⟨hlo, hhi⟩ := abs_lt.mp (show |(num / den : ℚ) - units| < units / 2 ^ 54 by
    rw [lt_div_iff₀ (by positivity), mul_comm]
    exact h)
  rw [← sub_pos] at hlo hhi
  have hlo' := mul_pos hlo (mul_pos hd' (show (0 : ℚ) < 2 ^ 54 by positivity))
  have hhi' := mul_pos hhi (mul_pos hd' (show (0 : ℚ) < 2 ^ 54 by positivity))
  apply nearestUnits_eq hr hd
  · have : (2 : ℚ) ^ 54 * (units * den) < 2 ^ 54 * num + units * den := by
      field_simp at hlo'
      linarith
    exact_mod_cast this
  · have : (2 : ℚ) ^ 54 * num < 2 ^ 54 * (units * den) + units * den := by
      field_simp at hhi'
      linarith
    exact_mod_cast this

/-- Only what a decimal stands for counts, not how many digits it has. -/
theorem toBinary64_eq {d : Decimal} {units : Nat} (hr : Representable units)
    (h : 2 ^ 54 * |d.toRat * unitsPerOne - units| < units) : d.toBinary64 = .finite false units hr := by
  have hunits : (0 : ℚ) < units := lt_of_le_of_lt (by positivity) h
  have hone : (1 : ℚ) ≤ units := by
    have : 0 < units := by exact_mod_cast hunits
    exact_mod_cast this
  have hlimit : (units : ℚ) < unitLimit := by exact_mod_cast hr.2
  obtain ⟨hlo, hhi⟩ := abs_lt.mp (show |d.toRat * unitsPerOne - units| < units / 2 by linarith)
  have hlow : 1 / 2 < d.toRat * unitsPerOne := by linarith
  have hpos : 0 < d.coefficient := coefficient_pos (lt_trans (by norm_num) hlow)
  obtain ⟨hsmallest, hlargest⟩ := size_mem hlow (by linarith)
  simp only [toBinary64]
  rw [if_neg (by omega), if_neg (by omega)]
  rw [toRat_mul] at h
  exact Binary64.ofRatio_eq (nearestUnits_of_close hr (Nat.pow_pos (by omega)) h) hr

/-- A decimal of 17 digits is close to the count that was rounded to it. -/
theorem abs_rounded_sub_lt {units : Nat} (hu : 0 < units) :
    2 ^ 54 * |(rounded maxPrecision units unitsPerOne).toRat * unitsPerOne - units| < units := by
  have hone : 0 < unitsPerOne := Nat.two_pow_pos _
  have hone' : (0 : ℚ) < unitsPerOne := by exact_mod_cast hone
  obtain ⟨hdigits, hoff⟩ := rounded_spec maxPrecision (by decide) hu hone
  generalize rounded maxPrecision units unitsPerOne = d at hdigits hoff ⊢
  have hlarge : 2 * 10 ^ 16 * |d.toRat - units / unitsPerOne| ≤ d.toRat := by
    have : (10 : ℚ) ^ 16 ≤ d.coefficient := by exact_mod_cast hdigits
    calc 2 * 10 ^ 16 * |d.toRat - units / unitsPerOne|
        = 10 ^ 16 * (2 * |d.toRat - units / unitsPerOne|) := by ring
      _ ≤ 10 ^ 16 * 10 ^ d.exponent := mul_le_mul_of_nonneg_left hoff (by positivity)
      _ ≤ d.toRat := mul_le_mul_of_nonneg_right this (by positivity)
  have hnear := le_abs_self (d.toRat - units / unitsPerOne)
  have hpos : (0 : ℚ) < units / unitsPerOne := div_pos (by exact_mod_cast hu) hone'
  have hscaled : d.toRat * unitsPerOne - units = (d.toRat - units / unitsPerOne) * unitsPerOne := by
    rw [sub_mul, div_mul_cancel₀ _ hone'.ne']
  rw [hscaled, abs_mul, abs_of_pos hone', ← mul_assoc, ← lt_div_iff₀ hone']
  linarith

end Decimal

end DeskCalculator
