import Mathlib.Algebra.Order.Field.Basic
import Mathlib.Tactic.FieldSimp
import Mathlib.Tactic.Linarith
import DeskCalculator.Proofs.Binary64.Nearest

/-!
# Nearest whole numbers

The whole number nearest to a number, rational or real, with ties to the even one. `nearestNat` finds it for a
quotient; all others are further away, or just as far, and then the two are neighbours.
-/

namespace DeskCalculator

-- Powers mean the same whatever else is imported.
attribute [local instance (high)] instPowNat

variable {K : Type*} [Field K] [LinearOrder K]

/-- The whole number nearest to a number, the even one of two that are equally near. -/
structure NearestWhole (n : Nat) (x : K) : Prop where
  off : 2 * |n - x| ≤ 1
  even : 2 * |n - x| = 1 → 2 ∣ n

variable [IsStrictOrderedRing K]

theorem nearestWhole_nearestNat (num : Nat) {den : Nat} (hd : 0 < den) :
    NearestWhole (nearestNat num den) (num / den : K) := by
  have hd' : (0 : K) < den := by exact_mod_cast hd
  obtain ⟨hlo, hhi⟩ := nearestNat_spec num hd
  have heven := @even_nearestNat_of_tie num den hd
  generalize nearestNat num den = n at hlo hhi heven
  have hscaled : 2 * ((n : K) - num / den) = (2 * (n * den) - 2 * num) / den := by
    field_simp
  constructor
  · have hlo' : 2 * ((n : K) * den) ≤ 2 * num + den := by exact_mod_cast hlo
    have hhi' : 2 * (num : K) ≤ 2 * (n * den) + den := by exact_mod_cast hhi
    rw [← abs_two, ← abs_mul, hscaled, abs_div, abs_of_pos hd', div_le_one hd', abs_le]
    constructor <;> linarith
  · intro htie
    rw [← abs_two, ← abs_mul, hscaled, abs_div, abs_of_pos hd', div_eq_one_iff_eq hd'.ne', abs_eq hd'.le] at htie
    apply heven
    rcases htie with h | h
    · exact .inl (by exact_mod_cast (show 2 * ((n : K) * den) = 2 * num + den by linarith))
    · exact .inr (by exact_mod_cast (show 2 * (num : K) = 2 * (n * den) + den by linarith))

theorem one_le_abs_cast_sub {n m : Nat} (h : m ≠ n) : (1 : K) ≤ |(n : K) - m| := by
  have : (1 : Int) ≤ |(n : Int) - m| := Int.one_le_abs (by omega)
  exact_mod_cast this

section
variable {n m : Nat} {x : K} (h : 2 * |n - x| ≤ 1)
include h

theorem le_of_near (hm : m ≤ x) : m ≤ n := by
  apply Nat.le_of_not_lt
  intro hlt
  have hlt' : (n : K) + 1 ≤ m := by exact_mod_cast hlt
  have := neg_abs_le ((n : K) - x)
  linarith

theorem ge_of_near (hm : x ≤ m) : n ≤ m := by
  apply Nat.le_of_not_lt
  intro hlt
  have hlt' : (m : K) + 1 ≤ n := by exact_mod_cast hlt
  have := le_abs_self ((n : K) - x)
  linarith

end

namespace NearestWhole

variable {n m : Nat} {x : K}

theorem nearest (h : NearestWhole n x) (m : Nat) : |n - x| ≤ |m - x| := by
  by_cases hne : m = n
  · rw [hne]
  · have hone := one_le_abs_cast_sub (K := K) hne
    have htriangle := abs_sub_le (n : K) x m
    rw [abs_sub_comm x] at htriangle
    linarith [h.off]

/-- Two whole numbers are equally near only if they are neighbours. -/
theorem of_tie (h : NearestWhole n x) (hne : m ≠ n) (ht : |m - x| = |n - x|) : |(n : K) - m| = 1 ∧ 2 ∣ n := by
  have hone := one_le_abs_cast_sub (K := K) hne
  have htriangle := abs_sub_le (n : K) x m
  rw [abs_sub_comm x, ht] at htriangle
  have hoff := h.off
  exact ⟨by linarith, h.even (by linarith)⟩

theorem unique (h : NearestWhole n x) (h' : NearestWhole m x) : m = n := by
  by_contra hne
  have ht := le_antisymm (h'.nearest n) (h.nearest m)
  obtain ⟨hone, heven⟩ := h.of_tie hne ht
  obtain ⟨-, heven'⟩ := h'.of_tie (Ne.symm hne) ht.symm
  have hone' : |(n : Int) - m| = 1 := by exact_mod_cast hone
  rcases (abs_eq (by decide)).mp hone' with h | h <;> omega

/-- A whole number other than the nearest is further away, or it is odd and its even neighbour is as near. -/
theorem further (h : NearestWhole n x) (hne : m ≠ n) :
    |n - x| < |m - x| ∨ (|n - x| = |m - x| ∧ 2 ∣ n ∧ ¬ 2 ∣ m) := by
  rcases (h.nearest m).lt_or_eq with hlt | ht
  · exact .inl hlt
  · obtain ⟨hone, heven⟩ := h.of_tie hne ht.symm
    have hone' : |(n : Int) - m| = 1 := by exact_mod_cast hone
    refine .inr ⟨ht, heven, ?_⟩
    rcases (abs_eq (by decide)).mp hone' with h | h <;> omega

end NearestWhole

end DeskCalculator
