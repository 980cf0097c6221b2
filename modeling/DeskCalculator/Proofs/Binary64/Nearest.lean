import DeskCalculator.Binary64.Basic

/-!
# Numbers close to a binary64 number

Neighbours of a number are further away than the number divided by `2 ^ 53`, so a quotient that is off by less
than half of that is rounded to the number. Where the number is a power of two, the quotient may lie among the
closer neighbours below it, and a quarter is needed.
-/

namespace DeskCalculator

-- Powers mean the same whatever else is imported.
attribute [local instance (high)] instPowNat

theorem nearestNat_eq {num den n : Nat} (lo : 2 * (n * den) < 2 * num + den) (hi : 2 * num < 2 * (n * den) + den) :
    nearestNat num den = n := by
  have hsplit := Nat.div_add_mod num den
  have hlt := Nat.mod_lt num (show den > 0 by omega)
  have hle : num / den ≤ n := by
    apply Nat.le_of_not_lt
    intro h
    have := Nat.mul_le_mul_left den h
    rw [Nat.mul_succ, Nat.mul_comm den n] at this
    omega
  have hge : n ≤ num / den + 1 := by
    apply Nat.le_of_not_lt
    intro h
    have := Nat.mul_le_mul_left den h
    rw [Nat.mul_succ, Nat.mul_succ, Nat.mul_comm den n] at this
    omega
  simp only [nearestNat]
  by_cases hn : num / den = n
  · rw [hn, Nat.mul_comm] at hsplit
    split <;> omega
  · have hn : n = num / den + 1 := by omega
    have hd : n * den = den * (num / den) + den := by rw [hn, Nat.mul_comm, Nat.mul_succ]
    split <;> omega

theorem nearestNat_spec {den : Nat} (num : Nat) (hd : 0 < den) :
    2 * (nearestNat num den * den) ≤ 2 * num + den ∧ 2 * num ≤ 2 * (nearestNat num den * den) + den := by
  have hsplit := Nat.div_add_mod num den
  have hlt := Nat.mod_lt num hd
  rw [Nat.mul_comm] at hsplit
  simp only [nearestNat]
  split
  · rw [Nat.add_mul]
    omega
  · omega

theorem even_nearestNat_of_tie {num den : Nat} (hd : 0 < den)
    (h : 2 * (nearestNat num den * den) = 2 * num + den ∨ 2 * num = 2 * (nearestNat num den * den) + den) :
    2 ∣ nearestNat num den := by
  have hsplit := Nat.div_add_mod num den
  have hlt := Nat.mod_lt num hd
  rw [Nat.mul_comm] at hsplit
  revert h
  simp only [nearestNat]
  split
  · rw [Nat.add_mul]
    omega
  · omega

theorem lt_two_pow_spacing (units : Nat) : units < 2 ^ (fractionBits + 1) * 2 ^ spacing units := by
  rw [← Nat.pow_add]
  refine Nat.lt_of_lt_of_le Nat.lt_log2_self (Nat.pow_le_pow_right (by decide) ?_)
  simp only [spacing]
  omega

theorem two_pow_spacing_le (units : Nat) (h : spacing units ≠ 0) : 2 ^ fractionBits * 2 ^ spacing units ≤ units := by
  have hu : units ≠ 0 := by
    intro hu
    simp [spacing, hu] at h
  have := Nat.log2_self_le hu
  rw [← Nat.pow_add]
  refine Nat.le_trans (Nat.pow_le_pow_right (by decide) ?_) this
  simp only [spacing] at h ⊢
  omega

/-- Above the subnormal counts the relative error of rounding is at most `2 ^ -53`. -/
theorem nearestUnits_spec {num den : Nat} (hd : 0 < den) (h : 2 ^ fractionBits ≤ num / den) :
    2 ^ (53 : Nat) * (nearestUnits num den * den) ≤ 2 ^ (53 : Nat) * num + num ∧
      2 ^ (53 : Nat) * num ≤ 2 ^ (53 : Nat) * (nearestUnits num den * den) + num := by
  have hstep : 2 ^ fractionBits * 2 ^ spacing (num / den) ≤ num / den := by
    by_cases h0 : spacing (num / den) = 0
    · simpa [h0] using h
    · exact two_pow_spacing_le _ h0
  have hscaled := Nat.le_trans (Nat.mul_le_mul_right den hstep) (Nat.div_mul_le_self num den)
  have hpos := Nat.two_pow_pos (spacing (num / den))
  simp only [nearestUnits]
  generalize 2 ^ spacing (num / den) = step at hscaled hpos ⊢
  obtain ⟨hlo, hhi⟩ := nearestNat_spec num (Nat.mul_pos hd hpos)
  generalize nearestNat num (den * step) = n at hlo hhi ⊢
  rw [Nat.mul_assoc, Nat.mul_comm step] at hscaled
  rw [Nat.mul_assoc n, Nat.mul_comm step]
  simp only [fractionBits] at hscaled
  omega

section
variable {units num den : Nat} (hr : Representable units) (hd : 0 < den)
  (lo : 2 ^ (54 : Nat) * (units * den) < 2 ^ (54 : Nat) * num + units * den)
  (hi : 2 ^ (54 : Nat) * num < 2 ^ (54 : Nat) * (units * den) + units * den)
include hr

include hi in
theorem spacing_div_le : spacing (num / den) ≤ spacing units := by
  apply Nat.le_of_not_lt
  intro h
  -- The quotient is at least the power of two above the number, and the number is one spacing below that.
  have hq := two_pow_spacing_le (num / den) (by omega)
  have hpow : 2 * 2 ^ spacing units ≤ 2 ^ spacing (num / den) := by
    rw [← Nat.pow_succ']
    exact Nat.pow_le_pow_right (by decide) h
  have hnum := Nat.div_mul_le_self num den
  have hlt := lt_two_pow_spacing units
  obtain ⟨n, hn⟩ := hr.1
  generalize 2 ^ spacing units = step at hn hpow hlt
  have hle : units + step ≤ 2 ^ (fractionBits + 1) * step := by
    rw [hn, Nat.mul_comm] at hlt
    rw [hn, Nat.mul_comm, ← Nat.succ_mul]
    exact Nat.mul_le_mul_right step (Nat.lt_of_mul_lt_mul_right hlt)
  have hq' : units + step ≤ num / den := by
    simp only [fractionBits] at hq hle
    omega
  have habove : (units + step) * den ≤ num / den * den := Nat.mul_le_mul_right den hq'
  have hbelow : (units + step) * den ≤ (2 ^ (fractionBits + 1) * step) * den := Nat.mul_le_mul_right den hle
  rw [Nat.add_mul] at habove hbelow
  rw [Nat.mul_assoc] at hbelow
  simp only [fractionBits] at hbelow
  omega

include hd lo in
theorem le_two_pow_spacing_div : units ≤ 2 ^ (fractionBits + 1) * 2 ^ spacing (num / den) := by
  apply Nat.le_of_not_lt
  intro h
  -- The number is a multiple of the spacing above the quotient's, hence two of the quotient's above the power.
  have hk : spacing (num / den) + 1 ≤ spacing units := by
    apply Nat.lt_of_not_le
    intro hk
    have := Nat.mul_le_mul_left (2 ^ (fractionBits + 1)) (Nat.pow_le_pow_right (n := 2) (by decide) hk)
    have := lt_two_pow_spacing units
    omega
  obtain ⟨n, hn⟩ := Nat.dvd_trans (Nat.pow_dvd_pow 2 hk) hr.1
  have hlt := lt_two_pow_spacing (num / den)
  rw [Nat.pow_succ] at hn
  generalize 2 ^ spacing (num / den) = step at h hn hlt
  have hn' : 2 ^ fractionBits + 1 ≤ n := by
    apply Nat.lt_of_not_le
    intro hle
    have := Nat.mul_le_mul_left (step * 2) hle
    simp only [fractionBits] at h this
    omega
  have hnum : num < 2 ^ (fractionBits + 1) * step * den := (Nat.div_lt_iff_lt_mul hd).mp hlt
  have hunits := Nat.mul_le_mul_right den (Nat.mul_le_mul_left (step * 2) hn')
  rw [← hn, Nat.mul_right_comm, Nat.mul_right_comm step] at hunits
  rw [Nat.mul_assoc] at hnum
  simp only [fractionBits] at hnum hunits
  omega

include hd lo hi

theorem nearestUnits_eq : nearestUnits num den = units := by
  have hk := spacing_div_le hr hi
  have hle := Nat.mul_le_mul_right den (le_two_pow_spacing_div hr hd lo)
  obtain ⟨m, hm⟩ := Nat.dvd_trans (Nat.pow_dvd_pow 2 hk) hr.1
  simp only [nearestUnits]
  generalize 2 ^ spacing (num / den) = step at hle hm ⊢
  have hstep : m * (den * step) = units * den := by
    rw [hm, Nat.mul_comm den, ← Nat.mul_assoc, Nat.mul_comm m]
  rw [Nat.mul_assoc, Nat.mul_comm step] at hle
  simp only [fractionBits] at hle
  rw [nearestNat_eq (n := m), Nat.mul_comm, ← hm]
  · rw [hstep]
    omega
  · rw [hstep]
    omega

end

theorem Binary64.ofRatio_eq {negative : Bool} {units num den : Nat} (h : nearestUnits num den = units)
    (hr : Representable units) : ofRatio negative num den = .finite negative units hr := by
  subst h
  exact dif_pos hr.2

end DeskCalculator
