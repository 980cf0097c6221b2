import DeskCalculator.Proofs.Binary64.Rounding

/-!
# Reading decimals

A decimal is read as the number nearest to it, whatever its size: what is cut off unseen for being too large or too
small is rounded to an infinity or to zero in any case.
-/

namespace DeskCalculator.Decimal

-- Powers mean the same whatever else is imported.
attribute [local instance (high)] instPowNat

open Binary64

/-- Half a unit and less is nothing. -/
theorem rounds_of_small {x : ℝ} (hx : 0 ≤ x) (h : x * unitsPerOne ≤ 1 / 2) : Rounds false x (zero false) := by
  have hr : 0 ≤ x * unitsPerOne := mul_nonneg hx (Nat.cast_nonneg _)
  have hfloor : ⌊x * unitsPerOne⌋₊ = 0 / 1 := Nat.floor_eq_zero.mpr (by linarith)
  have hn : NearestWhole 0 (x * unitsPerOne / 2 ^ 0) := by
    refine ⟨?_, fun _ => Nat.dvd_zero 2⟩
    rw [pow_zero, div_one, Nat.cast_zero, zero_sub, abs_neg, abs_of_nonneg hr]
    linarith
  have h := rounds_ofRatio_of_near false hr hfloor hn
  rwa [withSign_false, mul_div_cancel_right₀ _ cast_unitsPerOne_pos.ne',
    ← zero_eq_ofRatio] at h

theorem rounds_of_large {x : ℝ} (h : 2 * unitLimit ≤ x * unitsPerOne) : Rounds false x (.infinity false) := by
  have hone := cast_unitsPerOne_pos
  have hhalf : (0 : ℝ) < 2 ^ lastHalf := step_pos _
  have hlimit : (0 : ℝ) < unitLimit := Nat.cast_pos.mpr unitLimit_pos
  have hx : 0 ≤ x := by
    by_contra hneg
    have := mul_neg_of_neg_of_pos (not_le.mp hneg) hone
    linarith
  have hlarge := (overflows_iff (x * unitsPerOne)).mpr (by linarith)
  rw [mul_div_cancel_right₀ _ hone.ne'] at hlarge
  exact ⟨rfl, by rw [abs_of_nonneg hx, if_pos hlarge]⟩

theorem rounds_toBinary64 (d : Decimal) : Rounds false d.toRat d.toBinary64 := by
  simp only [toBinary64]
  by_cases hc : d.coefficient = 0
  · have hzero : d.toRat = 0 := by simp [toRat, hc]
    rw [if_pos (.inl hc), hzero, Rat.cast_zero]
    exact rounds_of_small le_rfl (by rw [zero_mul]; positivity)
  · have hc := Nat.pos_of_ne_zero hc
    split
    · next hsmall =>
      have hle : d.toRat * unitsPerOne ≤ 1 / 2 := not_lt.mp fun lo => absurd (neg_le_size lo) (by omega)
      have hle : ((d.toRat * unitsPerOne : ℚ) : ℝ) ≤ (1 / 2 : ℚ) := Rat.cast_le.mpr hle
      push_cast at hle
      exact rounds_of_small (Rat.cast_nonneg.mpr d.toRat_nonneg) hle
    · split
      · next hlarge =>
        have hle : 2 * unitLimit ≤ d.toRat * unitsPerOne := not_lt.mp fun hi => absurd (size_le hc hi) (by omega)
        exact rounds_of_large (by exact_mod_cast hle)
      · have hden : 0 < 10 ^ (-d.exponent).toNat := Nat.pow_pos (by decide)
        have h := rounds_ofRatio false (d.coefficient * 10 ^ d.exponent.toNat * unitsPerOne) hden
        have hcast : (d.toRat : ℝ) * unitsPerOne =
            (d.coefficient * 10 ^ d.exponent.toNat * unitsPerOne : Nat) / (10 ^ (-d.exponent).toNat : Nat) := by
          have h := congrArg (Rat.cast (K := ℝ)) (d.toRat_mul unitsPerOne)
          push_cast at h ⊢
          exact h
        rwa [withSign_false, ← hcast, mul_div_cancel_right₀ _ cast_unitsPerOne_pos.ne'] at h

end DeskCalculator.Decimal

namespace DeskCalculator.NumberLiteral

attribute [local instance (high)] instPowNat

/-- The number that a literal is written as: the digits around the point, times the power of ten behind them. -/
def number (l : NumberLiteral) : ℚ :=
  let fraction := l.fraction.getD []
  (Nat.ofDigitChars 10 l.whole 0 + Nat.ofDigitChars 10 fraction 0 / 10 ^ fraction.length) *
    10 ^ (l.exponent.map ExponentPart.value).getD 0

theorem toRat_decimal (l : NumberLiteral) : l.decimal.toRat = l.number := by
  simp only [decimal, Decimal.toRat, number]
  rw [Nat.ofDigitChars_append, Nat.ofDigitChars_eq_ofDigitChars_zero, zpow_sub₀ (by norm_num), zpow_natCast]
  push_cast
  field_simp

/-- A literal is read as the number nearest to what it is written as. -/
theorem rounds_value (l : NumberLiteral) : Binary64.Rounds false l.number l.value := by
  rw [← toRat_decimal]
  exact l.decimal.rounds_toBinary64

end DeskCalculator.NumberLiteral
