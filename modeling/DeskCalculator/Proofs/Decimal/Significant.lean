import DeskCalculator.Proofs.Decimal.Rounded

/-!
# The nearest decimal of so many digits

`rounded` looks at one grid only, that of the leading digit of the number. Decimals on coarser grids are on that
grid too, and those on finer ones are all below the number, further away than the first point of the grid.
-/

namespace DeskCalculator

-- Powers mean the same whatever else is imported.
attribute [local instance (high)] instPowNat

namespace Decimal

/-! ## Decimals of so many digits -/

/-- A decimal is on every grid that is finer than its own. -/
theorem exists_multiple {d : Decimal} {e : Int} (he : e ≤ d.exponent) : ∃ m : Nat, d.toRat = m * 10 ^ e := by
  obtain ⟨k, hk⟩ := Int.eq_ofNat_of_zero_le (Int.sub_nonneg_of_le he)
  refine ⟨d.coefficient * 10 ^ k, ?_⟩
  rw [toRat, show d.exponent = (k : Int) + e by omega, zpow_add₀ (by norm_num), zpow_natCast]
  push_cast
  ring

/-- The coefficient has exactly so many digits. -/
def HasDigits (d : Decimal) (precision : Nat) : Prop :=
  10 ^ (precision - 1) ≤ d.coefficient ∧ d.coefficient < 10 ^ precision

/-- Of all decimals with so many digits this is the one nearest to the number. Of two that are equally near, which
are one unit of some place apart, it is the one with an even digit there. -/
structure IsNearest (d : Decimal) (precision : Nat) (x : ℚ) : Prop where
  digits : d.HasDigits precision
  nearest : ∀ other : Decimal, other.HasDigits precision → |d.toRat - x| ≤ |other.toRat - x|
  even : ∀ other : Decimal, other.HasDigits precision → other ≠ d → |other.toRat - x| = |d.toRat - x| →
    ∃ (place : Int) (units : Nat), |d.toRat - other.toRat| = 10 ^ place ∧ d.toRat = units * 10 ^ place ∧ 2 ∣ units

namespace HasDigits

variable {d d' : Decimal} {precision : Nat}

theorem precision_pos (h : d.HasDigits precision) : 0 < precision := by
  apply Nat.pos_of_ne_zero
  rintro rfl
  exact absurd (h.1.trans_lt h.2) (by simp)

theorem le_toRat (h : d.HasDigits precision) : 10 ^ d.exponentOfLeading precision ≤ d.toRat := by
  have hp := h.precision_pos
  have hle : (10 : ℚ) ^ (precision - 1) ≤ d.coefficient := by exact_mod_cast h.1
  rw [exponentOfLeading, add_comm, zpow_add₀ (by norm_num), ← Nat.cast_one, ← Nat.cast_sub hp, zpow_natCast]
  exact mul_le_mul_of_nonneg_right hle (by positivity)

theorem toRat_lt (h : d.HasDigits precision) : d.toRat < 10 ^ (d.exponentOfLeading precision + 1) := by
  have hlt : (d.coefficient : ℚ) < 10 ^ precision := by exact_mod_cast h.2
  rw [exponentOfLeading, show d.exponent + (precision - 1) + 1 = precision + d.exponent by ring,
    zpow_add₀ (by norm_num), zpow_natCast]
  exact mul_lt_mul_of_pos_right hlt (by positivity)

theorem exponentOfLeading_le (h : d.HasDigits precision) {p : Nat} (h' : d'.HasDigits p) (he : d.toRat = d'.toRat) :
    d.exponentOfLeading precision ≤ d'.exponentOfLeading p := by
  have hlt := h.le_toRat.trans_lt (he ▸ h'.toRat_lt)
  have := (zpow_lt_zpow_iff_right₀ (by norm_num : (1 : ℚ) < 10)).mp hlt
  omega

theorem ext (h : d.HasDigits precision) (h' : d'.HasDigits precision) (he : d.toRat = d'.toRat) : d = d' := by
  have hle := h.exponentOfLeading_le h' he
  have hge := h'.exponentOfLeading_le h he.symm
  obtain ⟨c, e⟩ := d
  obtain ⟨c', e'⟩ := d'
  simp only [exponentOfLeading] at hle hge
  obtain rfl : e = e' := by omega
  have hten : (10 : ℚ) ^ e ≠ 0 := by positivity
  simpa [toRat, hten] using he

/-- A decimal of fewer digits is filled up with zeros. -/
theorem exists_of_lt (h : 0 < d.coefficient) (hlt : d.coefficient < 10 ^ precision) :
    ∃ d' : Decimal, d'.HasDigits precision ∧ d'.toRat = d.toRat := by
  have hlo := ten_pow_digitCount_le h
  have hhi := lt_ten_pow_digitCount d.coefficient
  have hcount := digitCount_pos h
  have hle : digitCount d.coefficient ≤ precision := by
    have := (Nat.pow_lt_pow_iff_right (by decide : 1 < 10)).mp (hlo.trans_lt hlt)
    omega
  obtain ⟨zeros, rfl⟩ := Nat.exists_eq_add_of_le hle
  refine ⟨⟨d.coefficient * 10 ^ zeros, d.exponent - zeros⟩, ⟨?_, ?_⟩, ?_⟩
  · rw [show digitCount d.coefficient + zeros - 1 = digitCount d.coefficient - 1 + zeros by omega, Nat.pow_add]
    exact Nat.mul_le_mul_right _ hlo
  · rw [Nat.pow_add]
    exact Nat.mul_lt_mul_of_pos_right hhi (Nat.pow_pos (by decide))
  · simp only [toRat, zpow_sub₀ (by norm_num : (10 : ℚ) ≠ 0), zpow_natCast]
    push_cast
    field_simp

end HasDigits

theorem IsNearest.unique {d d' : Decimal} {precision : Nat} {x : ℚ} (h : d.IsNearest precision x)
    (h' : d'.IsNearest precision x) : d' = d := by
  by_contra hne
  have ht := le_antisymm (h'.nearest d h.digits) (h.nearest d' h'.digits)
  obtain ⟨place, units, hgap, hu, heven⟩ := h.even d' h'.digits hne ht
  obtain ⟨place', units', hgap', hu', heven'⟩ := h'.even d h.digits (Ne.symm hne) ht.symm
  rw [abs_sub_comm, hgap] at hgap'
  obtain rfl : place' = place := (zpow_right_injective₀ (by norm_num) (by norm_num) hgap').symm
  have hten : (0 : ℚ) < 10 ^ place' := by positivity
  rw [hu, hu', ← sub_mul, abs_mul, abs_of_pos hten, mul_eq_right₀ hten.ne'] at hgap
  have hone : |(units : Int) - units'| = 1 := by exact_mod_cast hgap
  rcases (abs_eq (by decide)).mp hone with h | h <;> omega

/-! ## Rounding to digits -/

/-- Every decimal is on the grid of the leading digit, or it is finer and then strictly further away. -/
theorem on_grid_or_further {n precision : Nat} {e : Int} {x : ℚ} (hnear : NearestWhole n (x / 10 ^ e))
    (hlo : 10 ^ (precision - 1) ≤ x / 10 ^ e) {other : Decimal} (ho : other.HasDigits precision) :
    (∃ m : Nat, other.toRat = m * 10 ^ e) ∨ |(n : ℚ) * 10 ^ e - x| < |other.toRat - x| := by
  have hten : (0 : ℚ) < 10 ^ e := by positivity
  by_cases he : e ≤ other.exponent
  · exact .inl (exists_multiple he)
  · refine .inr ?_
    have hfirst := hnear.nearest (10 ^ (precision - 1))
    have hbelow : other.toRat < 10 ^ (precision - 1) * 10 ^ e := by
      refine ho.toRat_lt.trans_le ?_
      rw [← zpow_natCast, ← zpow_add₀ (by norm_num)]
      refine zpow_le_zpow_right₀ (by norm_num) ?_
      simp only [exponentOfLeading]
      omega
    have habove : 10 ^ (precision - 1) * 10 ^ e ≤ x := (le_div_iff₀ hten).mp hlo
    rw [abs_mul_sub]
    refine (mul_le_mul_of_nonneg_right hfirst hten.le).trans_lt ?_
    rw [← abs_mul_sub]
    push_cast
    rw [abs_of_nonpos (by linarith), abs_of_nonpos (by linarith)]
    linarith

section
variable {precision num den : Nat} (hp : 0 < precision) (hn : 0 < num) (hd : 0 < den)
include hp hn hd

theorem hasDigits_rounded : (rounded precision num den).HasDigits precision := by
  obtain ⟨n, e, hnear, hlo, hhi, hr⟩ := rounded_cases precision hp hn hd
  have hle : 10 ^ (precision - 1) ≤ n := le_of_near hnear.off (by exact_mod_cast hlo)
  have hge : n ≤ 10 ^ precision := ge_of_near hnear.off (by exact_mod_cast hhi)
  rw [hr]
  split
  · exact ⟨Nat.le_refl _, Nat.pow_lt_pow_right (by decide) (by omega)⟩
  · next hc => exact ⟨hle, Nat.lt_of_le_of_ne hge hc⟩

/-- The coefficient is also what the quotient is rounded to in the place of its last digit. -/
theorem nearestWhole_rounded : NearestWhole (rounded precision num den).coefficient
    (num / den / 10 ^ (rounded precision num den).exponent : ℚ) := by
  obtain ⟨n, e, hnear, -, -, hr⟩ := rounded_cases precision hp hn hd
  obtain ⟨p, rfl⟩ := Nat.exists_eq_succ_of_ne_zero (Nat.ne_of_gt hp)
  rw [hr]
  split
  · next hc =>
    -- After a carry the distance is a tenth, too little for a tie.
    have hscaled : ((10 ^ p : Nat) : ℚ) - num / den / 10 ^ (e + 1) = (n - num / den / 10 ^ e) / 10 := by
      rw [hc, zpow_add₀ (by norm_num), Nat.succ_eq_add_one]
      push_cast
      field_simp
      ring
    have hoff : 2 * |((10 ^ p : Nat) : ℚ) - num / den / 10 ^ (e + 1)| < 1 := by
      rw [hscaled, abs_div, abs_of_pos (by norm_num : (0 : ℚ) < 10)]
      linarith [hnear.off]
    exact ⟨hoff.le, fun h => absurd h hoff.ne⟩
  · exact hnear

theorem isNearest_rounded : (rounded precision num den).IsNearest precision (num / den) := by
  obtain ⟨n, e, hnear, hlo, -, hr⟩ := rounded_cases precision hp hn hd
  have hvalue : (rounded precision num den).toRat = n * 10 ^ e := hr ▸ toRat_carry hp e
  have hten : (0 : ℚ) < 10 ^ e := by positivity
  refine ⟨hasDigits_rounded hp hn hd, ?_, ?_⟩
  · intro other ho
    rw [hvalue]
    rcases on_grid_or_further hnear hlo ho with ⟨m, hm⟩ | hlt
    · rw [hm, abs_mul_sub, abs_mul_sub]
      exact mul_le_mul_of_nonneg_right (hnear.nearest m) hten.le
    · exact hlt.le
  · intro other ho hne ht
    rw [hvalue] at ht ⊢
    rcases on_grid_or_further hnear hlo ho with ⟨m, hm⟩ | hlt
    · have hmn : m ≠ n := by
        rintro rfl
        exact hne (ho.ext (hasDigits_rounded hp hn hd) (hm.trans hvalue.symm))
      rw [hm, abs_mul_sub, abs_mul_sub] at ht
      obtain ⟨hone, heven⟩ := hnear.of_tie hmn (mul_right_cancel₀ hten.ne' ht)
      refine ⟨e, n, ?_, rfl, heven⟩
      rw [hm, ← sub_mul, abs_mul, abs_of_pos hten, hone, one_mul]
    · exact absurd ht hlt.ne'

end

-- A half between nine and ten goes to ten, which is even in the place of the nine.
example : rounded 1 19 2 = ⟨1, 1⟩ := by decide

/-! ## Rounding to places -/

/-- The decimal with so many digits behind the point that is nearest to a quotient, half to even. -/
def toPlaces (places num den : Nat) : Decimal := ⟨nearestNat (num * 10 ^ places) den, -places⟩

/-- Where the last digit is behind the point, rounding to its place gives the same decimal once more. -/
theorem toPlaces_eq_rounded {precision num den : Nat} (hp : 0 < precision) (hn : 0 < num) (hd : 0 < den) {places : Nat}
    (he : (rounded precision num den).exponent = -places) :
    toPlaces places num den = rounded precision num den := by
  have hnear := nearestWhole_rounded hp hn hd
  have hplaces := nearestWhole_nearestNat (K := ℚ) (num * 10 ^ places) hd
  have hscaled : (num / den : ℚ) / 10 ^ (-(places : Int)) = (num * 10 ^ places : Nat) / den := by
    rw [zpow_neg, zpow_natCast, div_inv_eq_mul]
    push_cast
    ring
  rw [he, hscaled] at hnear
  rw [toPlaces, ← hplaces.unique hnear, ← he]

end Decimal

end DeskCalculator
