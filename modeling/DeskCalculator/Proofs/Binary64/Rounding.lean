import Mathlib.Algebra.Order.Floor.Semifield
import Mathlib.Analysis.Real.Sqrt
import DeskCalculator.Proofs.Binary64.Patterns

/-!
# Rounding to the nearest number

`Rounds` says what the number nearest to a real is, with no word on how it is found: every other number is further
away, or as far away with the odd pattern of the two; and what lies beyond the largest number by half a step is an
infinity. Rounding a count of units to whole steps of the right size does that: numbers on coarser grids are counts of
steps too, and those on finer grids lie below all that are in question.
-/

namespace DeskCalculator

-- Powers mean the same whatever else is imported.
attribute [local instance (high)] instPowNat

namespace Binary64

/-- The number that a real is rounded to, to nearest with ties to even. The sign is said apart, for zero has one. -/
def Rounds (negative : Bool) (x : ℝ) (z : Binary64) : Prop :=
  z.isNegative = negative ∧
    if (2 : ℝ) ^ 1024 - 2 ^ 970 ≤ |x| then z = .infinity negative
    else ∃ y : ℚ, z.toRat? = some y ∧ ∀ (w : Binary64) (v : ℚ), w.toRat? = some v → v ≠ y →
      |y - x| < |v - x| ∨ (|y - x| = |v - x| ∧ 2 ∣ z.toBits.toNat ∧ ¬ 2 ∣ w.toBits.toNat)

theorem eq_of_toRat? {z w : Binary64} {y : ℚ} (hz : z.toRat? = some y) (hw : w.toRat? = some y)
    (hs : z.isNegative = w.isNegative) : z = w := by
  cases z with
  | nan _ _ _ | infinity _ => cases hz
  | finite s u hu =>
    cases w with
    | nan _ _ _ | infinity _ => cases hw
    | finite t v hv =>
      have hs : s = t := hs
      subst hs
      rw [toRat?_finite, Option.some.injEq] at hz hw
      have hsame := (div_left_inj' cast_unitsPerOne_ne_zero).mp (hz.trans hw.symm)
      have hsame : signed s u = signed s v := by exact_mod_cast hsame
      refine finite_congr rfl ?_
      cases s <;> simpa [signed] using hsame

theorem Rounds.unique {negative : Bool} {x : ℝ} {z w : Binary64} (hz : Rounds negative x z) (hw : Rounds negative x w) :
    z = w := by
  obtain ⟨hsz, hz⟩ := hz
  obtain ⟨hsw, hw⟩ := hw
  split at hz
  · next hlarge =>
    rw [if_pos hlarge] at hw
    rw [hz, hw]
  · next hlarge =>
    rw [if_neg hlarge] at hw
    obtain ⟨y, hy, hz⟩ := hz
    obtain ⟨v, hv, hw⟩ := hw
    by_cases hvy : v = y
    · exact eq_of_toRat? hy (hvy ▸ hv) (hsz.trans hsw.symm)
    · rcases hz w v hv hvy with h | ⟨h, heven, -⟩ <;> rcases hw z y hy (Ne.symm hvy) with h' | ⟨h', -, hodd⟩
      · exact absurd h' h.asymm
      · exact absurd h' h.ne'
      · exact absurd h.symm h'.ne
      · exact absurd heven hodd

/-! ## Steps

A real `r` counts units. A step is `2 ^ k` of them, where neighbours at `r` are one step apart. -/

theorem step_pos (k : Nat) : (0 : ℝ) < 2 ^ k := by positivity

theorem lt_steps (r : ℝ) : r / 2 ^ spacing ⌊r⌋₊ < 2 ^ (fractionBits + 1) := by
  have hlt : ⌊r⌋₊ + 1 ≤ 2 ^ (fractionBits + 1) * 2 ^ spacing ⌊r⌋₊ := lt_two_pow_spacing ⌊r⌋₊
  have hlt' : ((⌊r⌋₊ : ℝ) + 1) ≤ 2 ^ (fractionBits + 1) * 2 ^ spacing ⌊r⌋₊ := by exact_mod_cast hlt
  rw [div_lt_iff₀ (step_pos _)]
  exact (Nat.lt_floor_add_one r).trans_le hlt'

theorem steps_le {r : ℝ} (hr : 0 ≤ r) (hk : spacing ⌊r⌋₊ ≠ 0) : 2 ^ fractionBits ≤ r / 2 ^ spacing ⌊r⌋₊ := by
  have hle := two_pow_spacing_le ⌊r⌋₊ hk
  have hle' : (2 : ℝ) ^ fractionBits * 2 ^ spacing ⌊r⌋₊ ≤ ⌊r⌋₊ := by exact_mod_cast hle
  rw [le_div_iff₀ (step_pos _)]
  exact hle'.trans (Nat.floor_le hr)

theorem abs_sub_steps (j k : Nat) (r : ℝ) : |((j * 2 ^ k : Nat) : ℝ) - r| = |(j : ℝ) - r / 2 ^ k| * 2 ^ k := by
  have hpos := step_pos k
  rw [← abs_of_pos hpos, ← abs_mul, abs_of_pos hpos, sub_mul, div_mul_cancel₀ _ hpos.ne']
  push_cast
  rfl

theorem even_magnitudeBits_iff {j k : Nat} (lo : k = 0 ∨ 2 ^ fractionBits ≤ j) (hj : j ≤ 2 ^ (fractionBits + 1)) :
    2 ∣ magnitudeBits (j * 2 ^ k) ↔ 2 ∣ j := by
  rcases Nat.lt_or_eq_of_le hj with hlt | rfl
  · rw [magnitudeBits_significand lo hlt]
    simp only [fractionBits]
    omega
  · -- A significand that has run over is the least one of the next exponent.
    rw [Nat.pow_succ 2 fractionBits, Nat.mul_assoc, ← Nat.pow_succ',
      magnitudeBits_significand (.inr (Nat.le_refl _)) (by decide)]
    simp only [fractionBits]
    omega

section
variable {r : ℝ} {n : Nat} (hn : 2 * |n - r / 2 ^ spacing ⌊r⌋₊| ≤ 1)
include hn

theorem near_le : n ≤ 2 ^ (fractionBits + 1) :=
  ge_of_near hn (by exact_mod_cast (lt_steps r).le)

theorem le_near (hr : 0 ≤ r) : spacing ⌊r⌋₊ = 0 ∨ 2 ^ fractionBits ≤ n := by
  by_cases hk : spacing ⌊r⌋₊ = 0
  · exact .inl hk
  · exact .inr (le_of_near hn (by exact_mod_cast steps_le hr hk))

theorem dvd_near (hr : 0 ≤ r) : 2 ^ spacing (n * 2 ^ spacing ⌊r⌋₊) ∣ n * 2 ^ spacing ⌊r⌋₊ :=
  dvd_mul_two_pow (le_near hn hr) (near_le hn)

theorem even_near_iff (hr : 0 ≤ r) : 2 ∣ magnitudeBits (n * 2 ^ spacing ⌊r⌋₊) ↔ 2 ∣ n :=
  even_magnitudeBits_iff (le_near hn hr) (near_le hn)

end

/-! ## Counts in steps -/

/-- Of the counts of 53 bits, none is nearer, and one that is as near has the odd pattern. -/
def NearestCount (units : Nat) (r : ℝ) : Prop :=
  ∀ ⦃m : Nat⦄, 2 ^ spacing m ∣ m → m ≠ units → |units - r| < |m - r| ∨
    (|units - r| = |m - r| ∧ 2 ∣ magnitudeBits units ∧ ¬ 2 ∣ magnitudeBits m)

section
variable {r : ℝ} (hr : 0 ≤ r) {n : Nat} (hn : NearestWhole n (r / 2 ^ spacing ⌊r⌋₊))
include hr hn

theorem further_of_not_dvd {m : Nat} (hm : 2 ^ spacing m ∣ m) (h : ¬ 2 ^ spacing ⌊r⌋₊ ∣ m) :
    |((n * 2 ^ spacing ⌊r⌋₊ : Nat) : ℝ) - r| < |(m : ℝ) - r| := by
  -- A count of a finer grid lies below the power of two that the real has reached, and that is a whole step.
  have hfiner : spacing m < spacing ⌊r⌋₊ := by
    apply Nat.lt_of_not_le
    intro hle
    exact h (Nat.dvd_trans (Nat.pow_dvd_pow 2 hle) hm)
  have hk : spacing ⌊r⌋₊ ≠ 0 := by omega
  have hbelow : m < 2 ^ fractionBits * 2 ^ spacing ⌊r⌋₊ := by
    refine Nat.lt_of_lt_of_le (lt_two_pow_spacing m) ?_
    rw [Nat.pow_succ, Nat.mul_assoc, ← Nat.pow_succ']
    exact Nat.mul_le_mul_left _ (Nat.pow_le_pow_right (by decide) hfiner)
  have hbelow' : (m : ℝ) < ((2 ^ fractionBits * 2 ^ spacing ⌊r⌋₊ : Nat) : ℝ) := by exact_mod_cast hbelow
  have habove : ((2 ^ fractionBits * 2 ^ spacing ⌊r⌋₊ : Nat) : ℝ) ≤ r := by
    push_cast
    exact (le_div_iff₀ (step_pos _)).mp (steps_le hr hk)
  calc |((n * 2 ^ spacing ⌊r⌋₊ : Nat) : ℝ) - r|
      ≤ |((2 ^ fractionBits * 2 ^ spacing ⌊r⌋₊ : Nat) : ℝ) - r| := by
        rw [abs_sub_steps, abs_sub_steps]
        exact mul_le_mul_of_nonneg_right (hn.nearest _) (step_pos _).le
    _ < |(m : ℝ) - r| := by
        rw [abs_of_nonpos (by linarith), abs_of_nonpos (by linarith)]
        linarith

theorem nearestCount_steps : NearestCount (n * 2 ^ spacing ⌊r⌋₊) r := by
  intro m hm hne
  by_cases hdvd : 2 ^ spacing ⌊r⌋₊ ∣ m
  · obtain ⟨j, hj⟩ := hdvd
    rw [Nat.mul_comm (2 ^ _) j] at hj
    subst hj
    have hj : j ≠ n := fun h => hne (by rw [h])
    rw [abs_sub_steps, abs_sub_steps]
    rcases hn.further hj with hlt | ⟨ht, heven, hodd⟩
    · exact .inl (mul_lt_mul_of_pos_right hlt (step_pos _))
    · have hnear := hn.off
      exact .inr ⟨by rw [ht], (even_near_iff hnear hr).mpr heven, fun h => hodd ((even_near_iff (ht ▸ hnear) hr).mp h)⟩
  · exact .inl (further_of_not_dvd hr hn hm hdvd)

end

/-! ## Overflow -/

/-- The exponent of half the distance between the largest counts. -/
def lastHalf : Nat := 970 + unitPlaces

theorem unitLimit_eq : unitLimit = 2 ^ (fractionBits + 1) * 2 ^ (lastHalf + 1) := by
  rw [unitLimit, ← Nat.pow_add, show fractionBits + 1 + (lastHalf + 1) = 1024 + unitPlaces from rfl]

/-- The largest count, a step below the limit. -/
def largestCount : Nat := (2 ^ (fractionBits + 1) - 1) * 2 ^ (lastHalf + 1)

theorem dvd_unitLimit : 2 ^ spacing unitLimit ∣ unitLimit := by
  rw [unitLimit_eq]
  exact dvd_mul_two_pow (.inr (by decide)) (Nat.le_refl _)

theorem dvd_largestCount : 2 ^ spacing largestCount ∣ largestCount := by
  rw [largestCount]
  exact dvd_mul_two_pow (.inr (by decide)) (Nat.sub_le _ _)

theorem even_magnitudeBits_unitLimit : 2 ∣ magnitudeBits unitLimit := by
  rw [unitLimit_eq, even_magnitudeBits_iff (.inr (by decide)) (Nat.le_refl _)]
  exact ⟨2 ^ fractionBits, Nat.pow_succ'⟩

theorem le_largestCount {units : Nat} (h : Representable units) : units ≤ largestCount := by
  obtain ⟨m, k, rfl, -, hm, hk⟩ := exists_significand h
  exact Nat.mul_le_mul (Nat.le_sub_one_of_lt hm) (Nat.pow_le_pow_right (by decide) hk)

theorem cast_largestCount : (largestCount : ℝ) = unitLimit - 2 * 2 ^ lastHalf := by
  rw [unitLimit_eq, largestCount, Nat.sub_mul, Nat.one_mul, Nat.cast_sub, Nat.pow_succ' (n := lastHalf)]
  · push_cast
    rfl
  · exact Nat.le_mul_of_pos_left _ (Nat.two_pow_pos _)

section
variable {r : ℝ} (hr : 0 ≤ r) {n : Nat} (hn : NearestWhole n (r / 2 ^ spacing ⌊r⌋₊))
include hr hn

/-- The largest count and the limit are a step apart, and the half between the two is too much already. -/
theorem lt_unitLimit_iff : n * 2 ^ spacing ⌊r⌋₊ < unitLimit ↔ r < unitLimit - 2 ^ lastHalf := by
  have hpos := step_pos lastHalf
  have hgrid := dvd_near hn.off hr
  have hnear := nearestCount_steps hr hn
  have hcast := cast_largestCount
  generalize n * 2 ^ spacing ⌊r⌋₊ = units at *
  constructor
  · intro hlt
    have hle : (units : ℝ) ≤ largestCount := by exact_mod_cast le_largestCount ⟨hgrid, hlt⟩
    have hcloser : |(units : ℝ) - r| < |(unitLimit : ℝ) - r| := by
      rcases hnear dvd_unitLimit hlt.ne' with h | ⟨-, -, hodd⟩
      · exact h
      · exact absurd even_magnitudeBits_unitLimit hodd
    by_contra hge
    rw [abs_of_nonpos (show (units : ℝ) - r ≤ 0 by linarith)] at hcloser
    rcases abs_cases ((unitLimit : ℝ) - r) with ⟨h, -⟩ | ⟨h, -⟩ <;> linarith
  · intro hlt
    by_contra hge
    have hge : (unitLimit : ℝ) ≤ units := by exact_mod_cast Nat.le_of_not_lt hge
    have hne : largestCount ≠ units := by
      rintro rfl
      linarith
    have hcloser : |(units : ℝ) - r| ≤ |(largestCount : ℝ) - r| := by
      rcases hnear dvd_largestCount hne with h | ⟨h, -⟩
      · exact h.le
      · exact h.le
    rw [abs_of_nonneg (show 0 ≤ (units : ℝ) - r by linarith)] at hcloser
    rcases abs_cases ((largestCount : ℝ) - r) with ⟨h, -⟩ | ⟨h, -⟩ <;> linarith

end

/-! ## Signs and units -/

def withSign (negative : Bool) (x : ℝ) : ℝ := if negative then -x else x

@[simp] theorem withSign_false (x : ℝ) : withSign false x = x := rfl

@[simp] theorem withSign_true (x : ℝ) : withSign true x = -x := rfl

theorem withSign_eq_zero_iff (negative : Bool) (x : ℝ) : withSign negative x = 0 ↔ x = 0 := by
  cases negative <;> simp

theorem withSign_sub (negative : Bool) (x y : ℝ) :
    withSign negative x - withSign negative y = withSign negative (x - y) := by
  cases negative with
  | false => rfl
  | true => exact (neg_sub_neg x y).trans (neg_sub x y).symm

theorem abs_withSign (negative : Bool) (x : ℝ) : |withSign negative x| = |x| := by
  cases negative <;> simp [withSign]

theorem cast_signed (negative : Bool) (units : Nat) :
    ((signed negative units : Int) : ℝ) = withSign negative units := by
  cases negative <;> simp [signed]

theorem withSign_div (negative : Bool) (x y : ℝ) : withSign negative (x / y) = withSign negative x / y := by
  cases negative <;> simp [neg_div]

theorem cast_toRat? (negative : Bool) (units : Nat) :
    (((signed negative units : ℚ) / unitsPerOne : ℚ) : ℝ) = withSign negative (units / unitsPerOne) := by
  rw [Rat.cast_div, Rat.cast_intCast, Rat.cast_natCast, cast_signed, withSign_div]

theorem cast_unitsPerOne_pos : (0 : ℝ) < unitsPerOne := Nat.cast_pos.mpr unitsPerOne_pos

theorem overflows_iff (r : ℝ) :
    (2 : ℝ) ^ 1024 - 2 ^ 970 ≤ r / unitsPerOne ↔ (unitLimit : ℝ) - 2 ^ lastHalf ≤ r := by
  have hlimit : (unitLimit : ℝ) = 2 ^ 1024 * unitsPerOne := by
    rw [unitLimit, unitsPerOne, Nat.cast_pow, Nat.cast_pow, Nat.cast_ofNat, pow_add]
  have hhalf : (2 : ℝ) ^ lastHalf = 2 ^ 970 * unitsPerOne := by
    rw [lastHalf, unitsPerOne, Nat.cast_pow, Nat.cast_ofNat, pow_add]
  rw [hlimit, hhalf, ← sub_mul, le_div_iff₀ cast_unitsPerOne_pos]

theorem even_toBits_iff (value : Binary64) : 2 ∣ value.toBits.toNat ↔ 2 ∣ value.magnitude := by
  rw [toNat_toBits]
  split <;> omega

theorem distance (negative : Bool) (units : Nat) (r : ℝ) :
    |(((signed negative units : ℚ) / unitsPerOne : ℚ) : ℝ) - withSign negative (r / unitsPerOne)| =
      |units - r| / unitsPerOne := by
  rw [cast_toRat?, withSign_sub, abs_withSign, ← sub_div, abs_div, abs_of_pos cast_unitsPerOne_pos]

/-- A number of the other sign is further away than zero is. -/
theorem distance_opposite (negative : Bool) (units : Nat) {r : ℝ} (hr : 0 ≤ r) :
    |(((signed (!negative) units : ℚ) / unitsPerOne : ℚ) : ℝ) - withSign negative (r / unitsPerOne)| =
      (units + r) / unitsPerOne := by
  have hopposite : withSign negative (r / unitsPerOne) = withSign (!negative) (-r / unitsPerOne) := by
    rw [neg_div]
    cases negative with
    | false => exact (neg_neg _).symm
    | true => rfl
  have hsum : (0 : ℝ) ≤ units + r := add_nonneg (Nat.cast_nonneg _) hr
  rw [hopposite, distance, sub_neg_eq_add, abs_of_nonneg hsum]

theorem NearestCount.le_zero {units : Nat} {r : ℝ} (h : NearestCount units r) (hr : 0 ≤ r) : |(units : ℝ) - r| ≤ r := by
  have hzero : |((0 : Nat) : ℝ) - r| = r := by rw [Nat.cast_zero, zero_sub, abs_neg, abs_of_nonneg hr]
  by_cases hne : 0 = units
  · rw [← hne, hzero]
  · rcases h (Nat.dvd_zero _) hne with hlt | ⟨ht, -⟩
    · exact hlt.le.trans hzero.le
    · exact ht.le.trans hzero.le

theorem further_of_nearestCount (negative : Bool) {units : Nat} {r : ℝ} (hr : 0 ≤ r) (h : Representable units)
    (hnear : NearestCount units r) {w : Binary64} {v : ℚ} (hw : w.toRat? = some v)
    (hne : v ≠ (signed negative units : ℚ) / unitsPerOne) :
    |(((signed negative units : ℚ) / unitsPerOne : ℚ) : ℝ) - withSign negative (r / unitsPerOne)| <
        |v - withSign negative (r / unitsPerOne)| ∨
      (|(((signed negative units : ℚ) / unitsPerOne : ℚ) : ℝ) - withSign negative (r / unitsPerOne)| =
          |v - withSign negative (r / unitsPerOne)| ∧
        2 ∣ (finite negative units h).toBits.toNat ∧ ¬ 2 ∣ w.toBits.toNat) := by
  have hone := cast_unitsPerOne_pos
  cases w with
  | nan _ _ _ | infinity _ => cases hw
  | finite t m hm =>
    rw [toRat?_finite, Option.some.injEq] at hw
    subst hw
    simp only [even_toBits_iff, magnitude]
    by_cases hsame : signed t m = signed negative m
    · rw [hsame] at hne ⊢
      rw [distance, distance, div_lt_div_iff_of_pos_right hone, div_left_inj' hone.ne']
      exact hnear hm.1 fun heq => hne (by rw [heq])
    · obtain rfl : t = !negative := by
        cases t <;> cases negative <;> first | rfl | exact absurd rfl hsame
      have hpos : 0 < m := by
        apply Nat.pos_of_ne_zero
        rintro rfl
        cases negative <;> exact hsame rfl
      rw [distance, distance_opposite negative m hr, div_lt_div_iff_of_pos_right hone]
      have hpos : (0 : ℝ) < m := Nat.cast_pos.mpr hpos
      exact .inl (lt_of_le_of_lt (hnear.le_zero hr) (by linarith))

/-- A quotient that is rounded to whole steps as a real is, is rounded to the number nearest to that. -/
theorem rounds_ofRatio_of_near (negative : Bool) {r : ℝ} (hr : 0 ≤ r) {num den : Nat} (hfloor : ⌊r⌋₊ = num / den)
    (hn : NearestWhole (nearestNat num (den * 2 ^ spacing (num / den))) (r / 2 ^ spacing (num / den))) :
    Rounds negative (withSign negative (r / unitsPerOne)) (ofRatio negative num den) := by
  rw [← hfloor] at hn
  have hnear : NearestCount (nearestUnits num den) r := by
    rw [nearestUnits, ← hfloor]
    exact nearestCount_steps hr hn
  have hlt : nearestUnits num den < unitLimit ↔
      ¬ (2 : ℝ) ^ 1024 - 2 ^ 970 ≤ |withSign negative (r / unitsPerOne)| := by
    rw [abs_withSign, abs_of_nonneg (div_nonneg hr cast_unitsPerOne_pos.le), overflows_iff, not_le, nearestUnits,
      ← hfloor]
    exact lt_unitLimit_iff hr hn
  by_cases hlarge : nearestUnits num den < unitLimit
  · rw [ofRatio, dif_pos hlarge, Rounds, if_neg (hlt.mp hlarge)]
    exact ⟨rfl, _, toRat?_finite _ _, fun w v hw hne => further_of_nearestCount negative hr _ hnear hw hne⟩
  · rw [ofRatio, dif_neg hlarge, Rounds, if_pos (Decidable.not_not.mp (mt hlt.mpr hlarge))]
    exact ⟨rfl, rfl⟩

/-- The one rounding that all numbers come from is the nearest one. -/
theorem rounds_ofRatio (negative : Bool) (num : Nat) {den : Nat} (hd : 0 < den) :
    Rounds negative (withSign negative (num / den / unitsPerOne)) (ofRatio negative num den) := by
  have hr : (0 : ℝ) ≤ num / den := by positivity
  refine rounds_ofRatio_of_near negative hr (Nat.floor_div_eq_div num den) ?_
  have hn := nearestWhole_nearestNat (K := ℝ) num (Nat.mul_pos hd (Nat.two_pow_pos (spacing (num / den))))
  rwa [Nat.cast_mul, ← div_div, Nat.cast_pow, Nat.cast_ofNat] at hn

theorem zero_eq_ofRatio (s : Bool) : zero s = ofRatio s 0 1 := by
  have hr : Representable 0 := ⟨Nat.dvd_zero _, unitLimit_pos⟩
  exact (ofRatio_eq (nearestUnits_self hr) hr).symm

end Binary64

end DeskCalculator
