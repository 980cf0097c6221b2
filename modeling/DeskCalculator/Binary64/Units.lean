/-!
# Counts of units and the rounding of a quotient

Finite binary64 numbers are whole numbers of units, one unit being `2 ^ -1074`. The format keeps 53
significant bits of a count; `nearestUnits` is the one place where anything is rounded to it, and
`dvd_nearestUnits` says that what comes out fits.
-/

namespace DeskCalculator

-- Powers mean the same whatever else is imported.
attribute [local instance (high)] instPowNat

/-- The bits of a significand after the leading one. -/
abbrev fractionBits : Nat := 52

/-- A unit is `2 ^ -unitPlaces`. -/
abbrev unitPlaces : Nat := 1074

def unitsPerOne : Nat := 2 ^ unitPlaces

/-- The exponent of the distance between neighbours at a count: `2 ^ spacing units` units. -/
def spacing (units : Nat) : Nat := units.log2 - fractionBits

/-- The count from which on numbers are too large for the format: that of `2 ^ 1024`. -/
def unitLimit : Nat := 2 ^ (1024 + unitPlaces)

/-- The counts that the format holds: 53 significant bits, below the limit. -/
def Representable (units : Nat) : Prop := 2 ^ spacing units ∣ units ∧ units < unitLimit

instance (units : Nat) : Decidable (Representable units) :=
  inferInstanceAs (Decidable (_ ∧ _))

/-- The whole number nearest to `num / den`; a half goes to the even neighbour. -/
def nearestNat (num den : Nat) : Nat :=
  let floor := num / den
  let twice := 2 * (num % den)
  if den < twice ∨ (twice = den ∧ floor % 2 = 1) then floor + 1 else floor

/-- The count of 53 significant bits nearest to `num / den` units; a tie goes to the even one. -/
def nearestUnits (num den : Nat) : Nat :=
  let step := 2 ^ spacing (num / den)
  nearestNat num (den * step) * step

theorem unitLimit_pos : 0 < unitLimit := Nat.two_pow_pos _

theorem div_le_nearestNat (num den : Nat) : num / den ≤ nearestNat num den := by
  simp only [nearestNat]; split <;> omega

theorem nearestNat_le (num den : Nat) : nearestNat num den ≤ num / den + 1 := by
  simp only [nearestNat]; split <;> omega

theorem spacing_eq {units k : Nat} (lo : 2 ^ (fractionBits + k) ≤ units)
    (hi : units < 2 ^ (fractionBits + 1 + k)) : spacing units = k := by
  have h : units ≠ 0 := by have := Nat.two_pow_pos (fractionBits + k); omega
  have hi' : units < 2 ^ (fractionBits + k + 1) := by
    rwa [show fractionBits + k + 1 = fractionBits + 1 + k by omega]
  have := (Nat.log2_eq_iff h).2 ⟨lo, hi'⟩
  simp [spacing, this]

theorem spacing_of_lt {units : Nat} (h : units < 2 ^ (fractionBits + 1)) : spacing units = 0 := by
  by_cases h₀ : units = 0
  · simp [spacing, h₀]
  · have := (Nat.log2_lt h₀).2 h
    simp only [spacing]; omega

theorem dvd_mul_two_pow {m k : Nat} (lo : k = 0 ∨ 2 ^ fractionBits ≤ m)
    (hi : m ≤ 2 ^ (fractionBits + 1)) :
    2 ^ spacing (m * 2 ^ k) ∣ m * 2 ^ k := by
  have hpos := Nat.two_pow_pos k
  rcases Nat.lt_or_eq_of_le hi with h | rfl
  · rcases lo with rfl | lo
    · simp [spacing_of_lt h]
    · rw [spacing_eq (k := k)]
      · exact Nat.dvd_mul_left _ _
      · rw [Nat.pow_add]; exact Nat.mul_le_mul_right _ lo
      · rw [Nat.pow_add]; exact Nat.mul_lt_mul_of_pos_right h hpos
  · rw [← Nat.pow_add, spacing_eq (k := k + 1)]
    · exact Nat.pow_dvd_pow 2 (by omega)
    · exact Nat.pow_le_pow_right (by decide) (by omega)
    · exact Nat.pow_lt_pow_right (by decide) (by omega)

/-- What `nearestUnits` yields has at most 53 significant bits. -/
theorem dvd_nearestUnits (num den : Nat) :
    2 ^ spacing (nearestUnits num den) ∣ nearestUnits num den := by
  have le := nearestNat_le num (den * 2 ^ spacing (num / den))
  have ge := div_le_nearestNat num (den * 2 ^ spacing (num / den))
  rw [← Nat.div_div_eq_div_mul] at le ge
  refine dvd_mul_two_pow ?_ ?_
  · by_cases h : num / den < 2 ^ (fractionBits + 1)
    · exact .inl (spacing_of_lt h)
    · refine .inr (Nat.le_trans ?_ ge)
      have h := Nat.le_of_not_lt h
      have h₀ := Nat.pos_iff_ne_zero.1 (Nat.lt_of_lt_of_le (Nat.two_pow_pos _) h)
      have hlog : fractionBits + 1 ≤ (num / den).log2 := (Nat.le_log2 h₀).2 h
      rw [Nat.le_div_iff_mul_le (Nat.two_pow_pos _), ← Nat.pow_add, spacing,
        show fractionBits + ((num / den).log2 - fractionBits) = (num / den).log2 by omega]
      exact Nat.log2_self_le h₀
  · refine Nat.le_trans le (Nat.div_lt_of_lt_mul ?_)
    rw [← Nat.pow_add]
    refine Nat.lt_of_lt_of_le Nat.lt_log2_self (Nat.pow_le_pow_right (by decide) ?_)
    simp only [spacing]; omega

end DeskCalculator
