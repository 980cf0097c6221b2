import Mathlib.Analysis.Real.Sqrt
import DeskCalculator.Proofs.Binary64.Rounding

/-!
# Square roots

A root is rounded by its whole part and by whether it is whole. That is enough, for roots of numbers are many units
large: a step is then more than one unit, and no half of a step lies between two neighbouring counts.
-/

namespace DeskCalculator.Binary64

-- Powers mean the same whatever else is imported.
attribute [local instance (high)] instPowNat

theorem two_mul_abs_sub (n : Nat) {half : Nat} (hpos : 0 < half) (z : ℝ) :
    2 * |n - z / (2 * half : Nat)| = |(2 * n * half : Nat) - z| / half := by
  have hscaled : 2 * (n - z / (2 * half : Nat)) = ((2 * n * half : Nat) - z) / half := by
    have : (half : ℝ) ≠ 0 := Nat.cast_ne_zero.mpr hpos.ne'
    push_cast
    field_simp
  rw [← Nat.abs_cast half, ← abs_div, ← hscaled, abs_mul, abs_two]

/-- All that lies between two neighbouring counts is rounded alike. -/
theorem nearestWhole_of_between {n a half : Nat} {x y : ℝ} (hpos : 0 < half) (hx : a < x ∧ x < a + 1)
    (hy : a < y ∧ y < a + 1) (h : NearestWhole n (x / (2 * half : Nat))) : NearestWhole n (y / (2 * half : Nat)) := by
  have hhalf : (0 : ℝ) < half := Nat.cast_pos.mpr hpos
  have hoff := h.off
  rw [two_mul_abs_sub n hpos, div_le_one hhalf, abs_le] at hoff
  suffices hlt : 2 * |n - y / (2 * half : Nat)| < 1 from ⟨hlt.le, fun htie => absurd htie hlt.ne⟩
  rw [two_mul_abs_sub n hpos, div_lt_one hhalf, abs_lt]
  generalize 2 * n * half = count at hoff ⊢
  -- Whole numbers are compared here, so the bounds hold with the one to spare that the two reals differ by at most.
  have hbelow : count < a + 1 + half := by exact_mod_cast (show (count : ℝ) < a + 1 + half by linarith)
  have habove : a < count + half := by exact_mod_cast (show (a : ℝ) < count + half by linarith)
  have hbelow' : (count : ℝ) ≤ a + half := by exact_mod_cast (show count ≤ a + half by omega)
  have habove' : (a : ℝ) + 1 ≤ count + half := by exact_mod_cast habove
  constructor <;> linarith

/-- Twice the whole part of a root, and one more if the root is not whole. -/
def twiceRoot (square : Nat) : Nat := 2 * square.sqrt + if square.sqrt * square.sqrt < square then 1 else 0

theorem twiceRoot_div_two (square : Nat) : twiceRoot square / 2 = square.sqrt := by
  rw [twiceRoot]
  split <;> omega

theorem twiceRoot_cases (square : Nat) : √(square : ℝ) = (twiceRoot square : ℝ) / 2 ∨
    (((square.sqrt : ℝ) < twiceRoot square / 2 ∧ (twiceRoot square : ℝ) / 2 < square.sqrt + 1) ∧
      (square.sqrt : ℝ) < √square ∧ √square < square.sqrt + 1) := by
  rw [twiceRoot]
  split
  · next hlt =>
    have hsucc := Nat.lt_succ_sqrt square
    refine .inr ⟨?_, ?_, ?_⟩
    · push_cast
      constructor <;> linarith
    · rw [Real.lt_sqrt (Nat.cast_nonneg _), pow_two]
      exact_mod_cast hlt
    · rw [Real.sqrt_lt' (by positivity), pow_two]
      exact_mod_cast hsucc
  · next hge =>
    have hsquare : square.sqrt * square.sqrt = square := Nat.le_antisymm (Nat.sqrt_le square) (Nat.le_of_not_lt hge)
    refine .inl ?_
    rw [Nat.add_zero, Nat.cast_mul, Nat.cast_ofNat, mul_div_cancel_left₀ _ two_ne_zero, Real.sqrt_eq_iff_mul_self_eq]
    · exact_mod_cast hsquare.symm
    · exact Nat.cast_nonneg _
    · exact Nat.cast_nonneg _

theorem nearestWhole_sqrt {square : Nat} (hk : spacing square.sqrt ≠ 0) :
    NearestWhole (nearestNat (twiceRoot square) (2 * 2 ^ spacing square.sqrt)) (√square / 2 ^ spacing square.sqrt) := by
  have hn := nearestWhole_nearestNat (K := ℝ) (twiceRoot square)
    (Nat.mul_pos Nat.two_pos (Nat.two_pow_pos (spacing square.sqrt)))
  rw [Nat.cast_mul, ← div_div, Nat.cast_ofNat] at hn
  rcases twiceRoot_cases square with h | ⟨hhalf, hroot⟩
  · rw [h]
    exact_mod_cast hn
  · obtain ⟨k, hk⟩ := Nat.exists_eq_succ_of_ne_zero hk
    have hstep : 2 ^ spacing square.sqrt = 2 * 2 ^ k := by rw [hk, Nat.pow_succ']
    have hcast : (2 : ℝ) ^ spacing square.sqrt = (2 * 2 ^ k : Nat) := by exact_mod_cast congrArg Nat.cast hstep
    rw [hstep] at hn ⊢
    rw [hcast]
    exact nearestWhole_of_between (Nat.two_pow_pos k) hhalf hroot hn

theorem spacing_sqrt_ne_zero {units : Nat} (h : units ≠ 0) : spacing (units * unitsPerOne).sqrt ≠ 0 := by
  have hle : 2 ^ (fractionBits + 1) ≤ (units * unitsPerOne).sqrt := by
    rw [Nat.le_sqrt, ← Nat.pow_add]
    refine Nat.le_trans ?_ (Nat.le_mul_of_pos_left _ (Nat.pos_of_ne_zero h))
    exact Nat.pow_le_pow_right (by decide) (by decide)
  have hpos := Nat.lt_of_lt_of_le (Nat.two_pow_pos _) hle
  have := (Nat.le_log2 hpos.ne').mpr hle
  simp only [spacing]
  omega

theorem sqrt_size (units : Nat) : √((units * unitsPerOne : Nat) : ℝ) / unitsPerOne = √((units : ℝ) / unitsPerOne) := by
  have hone := cast_unitsPerOne_pos
  rw [Nat.cast_mul, Real.sqrt_mul (Nat.cast_nonneg _), Real.sqrt_div (Nat.cast_nonneg _), mul_div_assoc,
    Real.sqrt_div_self, div_eq_mul_inv]

theorem rounds_sqrt {units : Nat} (h : units ≠ 0) :
    Rounds false √((units : ℝ) / unitsPerOne) (ofRatio false (twiceRoot (units * unitsPerOne)) 2) := by
  have hdiv := twiceRoot_div_two (units * unitsPerOne)
  have hr := rounds_ofRatio_of_near false (Real.sqrt_nonneg ((units * unitsPerOne : Nat) : ℝ))
    (Real.nat_floor_real_sqrt_eq_nat_sqrt.trans hdiv.symm)
    (by rw [hdiv]; exact nearestWhole_sqrt (spacing_sqrt_ne_zero h))
  rwa [sqrt_size] at hr

end DeskCalculator.Binary64
