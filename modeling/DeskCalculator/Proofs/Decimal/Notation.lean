import Mathlib.Algebra.Order.Floor.Semifield
import Mathlib.Data.Rat.Floor
import DeskCalculator.Proofs.Decimal.Significant

/-!
# General notation

A number is printed as the decimal of so many digits nearest to it, and nothing is lost when zeros at its end are
left out. The exponent after rounding decides on the notation; where that is positional, rounding the number once
more, to the place of the last digit, would not print anything else.
-/

namespace DeskCalculator

-- Powers mean the same whatever else is imported.
attribute [local instance (high)] instPowNat

/-- Digits stand before the point and, where there is one, behind it, and no zero could be left out. -/
structure NumberLiteral.Trimmed (l : NumberLiteral) : Prop where
  whole_ne_nil : l.whole ≠ []
  whole : l.whole.head? = some '0' → l.whole = ['0']
  fraction : ∀ f ∈ l.fraction, f ≠ [] ∧ f.getLast? ≠ some '0'

/-- The exponent is `x`, with a sign and with at least two digits. -/
structure ExponentPart.IsGeneral (e : ExponentPart) (x : Int) : Prop where
  mark : e.mark = 'e'
  sign : e.sign = some (if x < 0 then '-' else '+')
  value : e.value = x
  two_le : 2 ≤ e.digits.length
  head : 2 < e.digits.length → e.digits.head? ≠ some '0'

/-- The literal is in general notation for a number of so many digits whose leading digit has the exponent `x`. -/
structure NumberLiteral.IsGeneral (l : NumberLiteral) (precision : Nat) (x : Int) : Prop where
  wellFormed : l.WellFormed
  trimmed : l.Trimmed
  positional_iff : l.exponent = none ↔ -4 ≤ x ∧ x < precision
  scientific : ∀ e ∈ l.exponent, e.IsGeneral x ∧ ∃ c, l.whole = [c] ∧ c ≠ '0'

theorem NumberLiteral.IsGeneral.head_ne {l : NumberLiteral} {precision : Nat} {x : Int} (h : l.IsGeneral precision x) :
    l.text.head? ≠ some '-' := by
  obtain ⟨c, digits, hw⟩ := List.exists_cons_of_ne_nil h.trimmed.whole_ne_nil
  have hc := h.wellFormed.whole c (by simp [hw])
  rw [text, hw]
  rintro ⟨⟩
  cases hc

/-! ## Digits that are left out -/

theorem head_toDigits_ne {n : Nat} (hn : 0 < n) : (Nat.toDigits 10 n).head? ≠ some '0' := by
  induction n using Nat.strongRecOn with
  | _ n ih =>
    rw [Nat.toDigits_eq_if (by decide)]
    split
    · next hlt =>
      have hdigit : ∀ k < 10, 0 < k → [Nat.digitChar k].head? ≠ some '0' := by decide
      exact hdigit n hlt hn
    · rw [List.head?_append_of_ne_nil _ Nat.toDigits_ne_nil]
      exact ih (n / 10) (by omega) (by omega)

namespace Decimal

theorem getLast_dropTrailingZeros (digits : List Char) : (dropTrailingZeros digits).getLast? ≠ some '0' := by
  intro h
  rw [dropTrailingZeros, List.getLast?_reverse] at h
  have := of_mem_head?_dropWhile h
  simp at this

theorem fractionText_trimmed (n places : Nat) : fractionText n places = [] ∨
    ∃ digits, fractionText n places = '.' :: digits ∧ digits ≠ [] ∧ digits.getLast? ≠ some '0' := by
  unfold fractionText
  have hlast := getLast_dropTrailingZeros ((Nat.toDigits 10 (n % 10 ^ places)).leftpad places '0')
  split
  · exact .inl rfl
  · next hne => exact .inr ⟨_, rfl, hne, hlast⟩

theorem positional_trimmed (d : Decimal) : ∃ tail, d.positional = Nat.toDigits 10 ⌊d.toRat⌋₊ ++ tail ∧
    (tail = [] ∨ ∃ digits, tail = '.' :: digits ∧ digits ≠ [] ∧ digits.getLast? ≠ some '0') := by
  unfold positional
  split
  · next he =>
    obtain ⟨k, hk⟩ := Int.eq_ofNat_of_zero_le he
    refine ⟨[], ?_, .inl rfl⟩
    have hfloor : ⌊d.toRat⌋₊ = d.coefficient * 10 ^ k := by
      rw [toRat, hk, zpow_natCast, ← Nat.floor_natCast (R := ℚ) (d.coefficient * 10 ^ k)]
      push_cast
      rfl
    rw [hfloor, hk, Int.toNat_natCast, List.append_nil]
  · next he =>
    refine ⟨fractionText d.coefficient (-d.exponent).toNat, ?_, fractionText_trimmed _ _⟩
    have hfloor : ⌊d.toRat⌋₊ = d.coefficient / 10 ^ (-d.exponent).toNat := by
      rw [← Nat.floor_div_eq_div (K := ℚ), toRat, ten_zpow_eq, Int.toNat_of_nonpos (by omega)]
      simp [div_eq_mul_inv]
    rw [hfloor]

theorem IsPositional.trimmed {l : NumberLiteral} {d : Decimal} (h : IsPositional l d) :
    l.whole = Nat.toDigits 10 ⌊d.toRat⌋₊ ∧ l.Trimmed := by
  obtain ⟨hl, ht, he, -⟩ := h
  obtain ⟨tail, hd, htail⟩ := d.positional_trimmed
  have htext : l.whole ++ (l.fraction.map ('.' :: ·)).getD [] = Nat.toDigits 10 ⌊d.toRat⌋₊ ++ tail := by
    rw [← hd, ← ht, NumberLiteral.text, he]
    simp
  have hpoint : ∀ c ∈ ((l.fraction.map ('.' :: ·)).getD []).head?, c.isDigit = false := by
    cases l.fraction <;> simp
  have hpoint' : ∀ c ∈ tail.head?, c.isDigit = false := by
    rcases htail with rfl | ⟨digits, rfl, -⟩ <;> simp
  have hdigits : ∀ c ∈ Nat.toDigits 10 ⌊d.toRat⌋₊, c.isDigit = true := fun _ => isDigit_of_mem_toDigits
  have hwhole := congrArg (List.takeWhile Char.isDigit) htext
  rw [takeWhile_append_run hl.whole hpoint, takeWhile_append_run hdigits hpoint'] at hwhole
  rw [hwhole, List.append_cancel_left_eq] at htext
  refine ⟨hwhole, ?_, ?_, ?_⟩
  · rw [hwhole]
    exact Nat.toDigits_ne_nil
  · rw [hwhole]
    intro hzero
    rcases Nat.eq_zero_or_pos ⌊d.toRat⌋₊ with h0 | hpos
    · rw [h0, Nat.toDigits_zero]
    · exact absurd hzero (head_toDigits_ne hpos)
  · intro f hf
    rw [Option.mem_def.mp hf] at htext
    rcases htail with rfl | ⟨digits, rfl, hne, hlast⟩
    · cases htext
    · obtain rfl : f = digits := by simpa using htext
      exact ⟨hne, hlast⟩

/-! ## The text of a value -/

theorem dropTrailingZeros_append_zero (digits : List Char) :
    dropTrailingZeros (digits ++ ['0']) = dropTrailingZeros digits := by
  simp [dropTrailingZeros]

theorem toDigits_mul_ten {n : Nat} (hn : 0 < n) : Nat.toDigits 10 (n * 10) = Nat.toDigits 10 n ++ ['0'] := by
  have h := @Nat.toDigits_append_toDigits 10 n 0 (by decide) hn (by decide)
  rw [Nat.mul_comm, ← Nat.add_zero (10 * n), ← h, Nat.toDigits_zero]

theorem leftpad_toDigits_mul_ten (n : Nat) {places : Nat} (hp : 0 < places) :
    (Nat.toDigits 10 (n * 10)).leftpad (places + 1) '0' = (Nat.toDigits 10 n).leftpad places '0' ++ ['0'] := by
  rcases Nat.eq_zero_or_pos n with rfl | hn
  · obtain ⟨k, rfl⟩ := Nat.exists_eq_succ_of_ne_zero (Nat.ne_of_gt hp)
    simp [List.leftpad, Nat.toDigits_zero, List.replicate_succ']
  · simp [List.leftpad, toDigits_mul_ten hn]

theorem fractionText_mul_ten (n : Nat) {places : Nat} (hp : 0 < places) :
    fractionText (n * 10) (places + 1) = fractionText n places := by
  unfold fractionText
  rw [Nat.pow_succ, Nat.mul_mod_mul_right, leftpad_toDigits_mul_ten _ hp, dropTrailingZeros_append_zero]

/-- A zero more at the end of a coefficient is left out. -/
theorem positional_mul_ten (coefficient : Nat) (e : Int) :
    positional ⟨coefficient * 10, e - 1⟩ = positional ⟨coefficient, e⟩ := by
  unfold positional
  simp only
  rcases Int.lt_trichotomy e 0 with hneg | rfl | hpos
  · obtain ⟨k, hk, rfl⟩ : ∃ k : Nat, 0 < k ∧ e = -k := ⟨(-e).toNat, by omega, by omega⟩
    rw [if_neg (by omega), if_neg (by omega), show (-(-(k : Int) - 1)).toNat = k + 1 by omega, neg_neg,
      Int.toNat_natCast, fractionText_mul_ten _ hk, Nat.pow_succ, Nat.mul_div_mul_right _ _ (by decide)]
  · rw [if_neg (by decide), if_pos (Int.le_refl 0), show (-((0 : Int) - 1)).toNat = 1 by rfl]
    have hzero : fractionText (coefficient * 10) 1 = [] := by
      simp [fractionText, Nat.toDigits_zero, dropTrailingZeros, List.leftpad]
    simp [hzero]
  · obtain ⟨k, rfl⟩ : ∃ k : Nat, e = k + 1 := ⟨(e - 1).toNat, by omega⟩
    rw [if_pos (by omega), if_pos (by omega), add_sub_cancel_right, Int.toNat_natCast, Int.toNat_natCast_add_one,
      Nat.pow_succ', Nat.mul_assoc]

theorem positional_mul_pow (coefficient k : Nat) (e : Int) :
    positional ⟨coefficient * 10 ^ k, e - k⟩ = positional ⟨coefficient, e⟩ := by
  induction k with
  | zero => simp
  | succ k ih => rw [Nat.pow_succ, ← Nat.mul_assoc, Nat.cast_add_one, ← sub_sub, positional_mul_ten, ih]

/-- In positional notation equal numbers have one text. -/
theorem positional_congr {d d' : Decimal} (h : d.toRat = d'.toRat) : d.positional = d'.positional := by
  wlog hle : d.exponent ≤ d'.exponent generalizing d d'
  · exact (this h.symm (by omega)).symm
  obtain ⟨c, e⟩ := d
  obtain ⟨c', e'⟩ := d'
  obtain ⟨k, hk⟩ := Int.eq_ofNat_of_zero_le (Int.sub_nonneg_of_le hle)
  obtain rfl : e = e' - k := by
    simp only at hk
    omega
  have hc : (c : ℚ) = c' * 10 ^ k := by
    have hten : (10 : ℚ) ^ e' ≠ 0 := by positivity
    rw [toRat, toRat, zpow_sub₀ (by norm_num), zpow_natCast] at h
    field_simp at h
    linarith
  obtain rfl : c = c' * 10 ^ k := by exact_mod_cast hc
  exact positional_mul_pow c' k e'

/-! ## Both notations -/

theorem isGeneral_exponentPart (x : Int) : (exponentPart x).IsGeneral x := by
  refine ⟨rfl, rfl, value_exponentPart x, ?_, ?_⟩
  · simp only [exponentPart, List.length_leftpad]
    omega
  · simp only [exponentPart, List.length_leftpad]
    intro hlong
    have hpos : 0 < x.natAbs := by
      apply Nat.pos_of_ne_zero
      intro h0
      rw [h0, Nat.toDigits_zero] at hlong
      simp at hlong
    rw [List.leftpad, show 2 - (Nat.toDigits 10 x.natAbs).length = 0 by omega]
    exact head_toDigits_ne hpos

/-- The digits of a decimal, read with the point behind the first one. -/
theorem floor_leading {d : Decimal} {precision : Nat} (h : d.HasDigits precision) :
    1 ≤ ⌊toRat ⟨d.coefficient, 1 - precision⟩⌋₊ ∧ ⌊toRat ⟨d.coefficient, 1 - precision⟩⌋₊ < 10 := by
  have hp := h.precision_pos
  have hd : HasDigits ⟨d.coefficient, 1 - precision⟩ precision := h
  have hlo := hd.le_toRat
  have hhi := hd.toRat_lt
  rw [exponentOfLeading, show (1 - precision : Int) + (precision - 1) = 0 by ring] at hlo hhi
  constructor
  · exact Nat.le_floor (by simpa using hlo)
  · exact (Nat.floor_lt (toRat_nonneg _)).mpr (by simpa using hhi)

theorem exists_general {d : Decimal} {precision : Nat} (h : d.HasDigits precision) : ∃ l : NumberLiteral,
    l.text = d.general precision ∧ l.decimal.toRat = d.toRat ∧ l.IsGeneral precision (d.exponentOfLeading precision) ∧
      (l.exponent = none → l.text = d.positional) := by
  unfold general
  simp only
  split
  · next hx =>
    obtain ⟨l, hl⟩ := exists_positional d
    obtain ⟨hwf, ht, he, hv⟩ := id hl
    refine ⟨l, ht, hv, ⟨hwf, hl.trimmed.2, iff_of_true he hx, ?_⟩, fun _ => ht⟩
    simp [he]
  · next hx =>
    obtain ⟨l, hl⟩ := exists_positional ⟨d.coefficient, 1 - precision⟩
    obtain ⟨hwf, ht, hv⟩ := hl.scientific
    obtain ⟨hwhole, htrimmed⟩ := hl.trimmed
    obtain ⟨hlo, hhi⟩ := floor_leading h
    rw [Nat.toDigits_of_lt_base hhi] at hwhole
    refine ⟨_, ht, hv, ⟨hwf, ⟨htrimmed.1, htrimmed.2, htrimmed.3⟩, iff_of_false (by simp) hx, ?_⟩, by simp⟩
    intro e he
    cases he
    refine ⟨isGeneral_exponentPart _, _, hwhole, ?_⟩
    have hhead := head_toDigits_ne hlo
    rw [Nat.toDigits_of_lt_base hhi] at hhead
    simpa using hhead

end Decimal

/-- A finite number other than zero is printed in general notation, as the decimal nearest to it of so many digits. -/
theorem Binary64.generalText_spec (precision : Nat) (negative : Bool) {units : Nat} (h : Representable units)
    (hu : units ≠ 0) :
    let digits := max 1 (min precision maxPrecision)
    let text := (finite negative units h).generalText precision
    ∃ (d : Decimal) (x : Int) (l : NumberLiteral),
      (∀ other : Decimal, other.IsNearest digits (units / unitsPerOne) ↔ other = d) ∧
      10 ^ x ≤ d.toRat ∧ d.toRat < 10 ^ (x + 1) ∧
      text = signText negative ++ l.text ∧ l.decimal.toRat = d.toRat ∧ l.IsGeneral digits x ∧
      (text.head? = some '-' ↔ negative = true) ∧
      (l.exponent = none → l.text = (Decimal.toPlaces (digits - 1 - x).toNat units unitsPerOne).positional) := by
  intro digits text
  have hd : 0 < digits := by omega
  have hn : 0 < units := Nat.pos_of_ne_zero hu
  have hone : 0 < unitsPerOne := Nat.two_pow_pos _
  have hnearest := Decimal.isNearest_rounded hd hn hone
  obtain ⟨l, ht, hv, hg, hpositional⟩ := Decimal.exists_general hnearest.digits
  have htext : text = signText negative ++ l.text := by
    simp only [text, generalText, hu, if_false, ht]
    rfl
  refine ⟨_, _, l, ?_, hnearest.digits.le_toRat, hnearest.digits.toRat_lt, htext, hv, hg, ?_, ?_⟩
  · exact fun other => ⟨hnearest.unique, fun he => he ▸ hnearest⟩
  · rw [htext]
    cases negative with
    | false => simp [signText, hg.head_ne]
    | true => simp [signText]
  · intro he
    have hx := (hg.positional_iff.mp he).2
    rw [hpositional he, Decimal.toPlaces_eq_rounded hd hn hone]
    simp only [Decimal.exponentOfLeading] at hx ⊢
    omega

theorem Binary64.representable_carried : Representable (1999999 * 2 ^ (unitPlaces - 1)) := by
  decide +kernel

/-- With six digits half less than a million becomes a million, and is then no longer written positionally. -/
theorem Binary64.generalText_spec_carried :
    let text := (finite false _ representable_carried).generalText 6
    text = "1e+06".toList ∧
    ∃ (d : Decimal) (x : Int) (l : NumberLiteral),
      (∀ other : Decimal, other.IsNearest 6 ((1999999 * 2 ^ (unitPlaces - 1) : Nat) / unitsPerOne) ↔ other = d) ∧
      10 ^ x ≤ d.toRat ∧ d.toRat < 10 ^ (x + 1) ∧ text = l.text ∧ l.decimal.toRat = d.toRat ∧ l.IsGeneral 6 x := by
  refine ⟨by decide +kernel, ?_⟩
  obtain ⟨d, x, l, hd, hlo, hhi, ht, hv, hg, -⟩ := generalText_spec 6 false representable_carried (by decide +kernel)
  exact ⟨d, x, l, hd, hlo, hhi, ht, hv, hg⟩

end DeskCalculator
