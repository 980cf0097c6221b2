import DeskCalculator.Proofs.Decimal.Notation

/-!
# Short literals

Two decimals of at most 15 digits are further apart than reading either as a binary64 number can move it. So a
literal of few digits comes back when it is read and printed with enough of them.
-/

namespace DeskCalculator

-- Powers mean the same whatever else is imported.
attribute [local instance (high)] instPowNat

namespace Decimal

/-! ## Reading -/

theorem ten_pow_le : (10 : ℚ) ^ (300 : Nat) ≤ 2 ^ (1000 : Nat) := by
  rw [show 300 = 3 * 100 by rfl, show 1000 = 10 * 100 by rfl, pow_mul, pow_mul]
  exact pow_le_pow_left₀ (by norm_num) (by norm_num) 100

/-- A decimal of this size has all 53 bits when it is read, and is not too large. -/
theorem toRat_mul_mem {d : Decimal} (hlo : 1 / 10 ^ (300 : Nat) ≤ d.toRat) (hhi : d.toRat ≤ 10 ^ (300 : Nat)) :
    2 ^ fractionBits ≤ d.toRat * unitsPerOne ∧ 2 * (d.toRat * unitsPerOne) < unitLimit := by
  have hlimit : (unitLimit : ℚ) = 2 ^ (24 : Nat) * (2 ^ (1000 : Nat) * 2 ^ (1074 : Nat)) := by
    rw [← pow_add, ← pow_add, unitLimit]
    push_cast
    rfl
  have hsplit : (2 : ℚ) ^ (1074 : Nat) = 2 ^ (1000 : Nat) * 2 ^ (74 : Nat) := by
    rw [← pow_add]
  have hten := ten_pow_le
  rw [div_le_iff₀ (by positivity)] at hlo
  rw [hlimit, cast_unitsPerOne, hsplit]
  have hpos : (0 : ℚ) < 10 ^ (300 : Nat) := by positivity
  generalize (10 : ℚ) ^ (300 : Nat) = ten at hlo hhi hten hpos
  generalize (2 : ℚ) ^ (1000 : Nat) = two at hten ⊢
  have hone : 1 ≤ d.toRat * two := hlo.trans (mul_le_mul_of_nonneg_left hten d.toRat_nonneg)
  have htwo : d.toRat * two ≤ two * two := mul_le_mul_of_nonneg_right (hhi.trans hten) (by linarith)
  rw [← mul_assoc, show (2 : ℚ) ^ (24 : Nat) * (two * (two * 2 ^ (74 : Nat))) =
    two * two * 2 ^ (98 : Nat) by ring]
  generalize d.toRat * two = low at hone htwo ⊢
  generalize two * two = high at htwo ⊢
  constructor
  · norm_num
    linarith
  · linarith

/-- Such a decimal is moved by at most `2 ^ -53` of itself when it is read. -/
theorem exists_toBinary64 {d : Decimal} (hlo : 1 / 10 ^ (300 : Nat) ≤ d.toRat) (hhi : d.toRat ≤ 10 ^ (300 : Nat)) :
    ∃ (units : Nat) (h : Representable units), d.toBinary64 = .finite false units h ∧
      2 ^ (53 : Nat) * |units / unitsPerOne - d.toRat| ≤ d.toRat := by
  obtain ⟨hlow, hhigh⟩ := toRat_mul_mem hlo hhi
  have hone : 1 ≤ d.toRat * unitsPerOne := le_trans (by norm_num) hlow
  obtain ⟨hsmallest, hlargest⟩ := size_mem (d := d) (by linarith) (by linarith)
  have hc : 0 < d.coefficient := coefficient_pos (lt_of_lt_of_le (by norm_num) hone)
  have hmul := d.toRat_mul unitsPerOne
  have hden : 0 < 10 ^ (-d.exponent).toNat := Nat.pow_pos (by decide)
  simp only [toBinary64]
  rw [if_neg (by omega), if_neg (by omega)]
  generalize d.coefficient * 10 ^ d.exponent.toNat * unitsPerOne = num at hmul ⊢
  generalize 10 ^ (-d.exponent).toNat = den at hmul hden ⊢
  have hden' : (0 : ℚ) < den := by exact_mod_cast hden
  have hnormal : 2 ^ fractionBits ≤ num / den := by
    rw [Nat.le_div_iff_mul_le hden]
    rw [hmul, le_div_iff₀ hden'] at hlow
    exact_mod_cast hlow
  obtain ⟨hle, hge⟩ := nearestUnits_spec hden hnormal
  have hdvd := dvd_nearestUnits num den
  have hratio := @Binary64.ofRatio_eq false _ num den rfl
  generalize nearestUnits num den = units at hle hge hdvd hratio
  have hle' : 2 ^ (53 : Nat) * ((units : ℚ) * den) ≤ 2 ^ (53 : Nat) * num + num := by exact_mod_cast hle
  have hge' : 2 ^ (53 : Nat) * (num : ℚ) ≤ 2 ^ (53 : Nat) * (units * den) + num := by exact_mod_cast hge
  have hnum : d.toRat * unitsPerOne * den = num := (eq_div_iff hden'.ne').mp hmul
  have hoff : 2 ^ (53 : Nat) * |units - d.toRat * unitsPerOne| ≤ d.toRat * unitsPerOne := by
    have habs : |2 ^ (53 : Nat) * ((units : ℚ) * den - num)| ≤ num := abs_le.mpr ⟨by linarith, by linarith⟩
    apply le_of_mul_le_mul_right _ hden'
    rwa [← hnum, ← sub_mul, ← mul_assoc, abs_mul, abs_of_pos hden', abs_mul, abs_of_pos (by positivity)] at habs
  have hlimit : units < unitLimit := by
    have hnear := le_abs_self (units - d.toRat * unitsPerOne)
    exact_mod_cast show (units : ℚ) < unitLimit by linarith
  refine ⟨units, ⟨hdvd, hlimit⟩, hratio ⟨hdvd, hlimit⟩, ?_⟩
  have hpos : (0 : ℚ) < unitsPerOne := pos_of_mul_pos_right (by linarith) d.toRat_nonneg
  generalize (unitsPerOne : ℚ) = one at hoff hpos ⊢
  apply le_of_mul_le_mul_right _ hpos
  rwa [mul_assoc, ← abs_of_pos hpos, ← abs_mul, sub_mul, abs_of_pos hpos, div_mul_cancel₀ _ hpos.ne']

/-! ## Printing -/

section
variable {d d' : Decimal} {precision : Nat} {x : ℚ}

/-- Two decimals of so many digits differ by a unit of the last digit of the finer one. -/
theorem HasDigits.gap (h : d.HasDigits precision) (h' : d'.HasDigits precision) (hne : d ≠ d') :
    min d.toRat d'.toRat < 10 ^ precision * |d.toRat - d'.toRat| := by
  wlog hle : d.exponent ≤ d'.exponent generalizing d d'
  · rw [min_comm, abs_sub_comm]
    exact this h' h (Ne.symm hne) (by omega)
  obtain ⟨m, hm⟩ := exists_multiple hle
  have hmc : m ≠ d.coefficient := by
    rintro rfl
    exact hne (h.ext h' hm.symm)
  have hten : (0 : ℚ) < 10 ^ d.exponent := by positivity
  have hgap : 10 ^ d.exponent ≤ |d.toRat - d'.toRat| := by
    rw [hm, toRat, ← sub_mul, abs_mul, abs_of_pos hten]
    exact le_mul_of_one_le_left hten.le (one_le_abs_cast_sub hmc)
  have hdigits : (d.coefficient : ℚ) < 10 ^ precision := by exact_mod_cast h.2
  calc min d.toRat d'.toRat
      ≤ d.toRat := min_le_left _ _
    _ < 10 ^ precision * 10 ^ d.exponent := mul_lt_mul_of_pos_right hdigits hten
    _ ≤ 10 ^ precision * |d.toRat - d'.toRat| := mul_le_mul_of_nonneg_left hgap (by positivity)

/-- A number that was read off a decimal of at most 15 digits is nearest to no other one. -/
theorem IsNearest.eq_of_close (h : d.IsNearest precision x) (h' : d'.HasDigits precision) (hp : precision ≤ 15)
    (hx : 2 ^ (53 : Nat) * |x - d'.toRat| ≤ d'.toRat) : d = d' := by
  by_contra hne
  have hgap := h.digits.gap h' hne
  have hnear := h.nearest d' h'
  have htriangle := abs_sub_le d.toRat x d'.toRat
  rw [abs_sub_comm d'.toRat] at hnear
  have hapart := neg_abs_le (d.toRat - d'.toRat)
  have hpow : (10 : ℚ) ^ precision ≤ 10 ^ (15 : Nat) := pow_le_pow_right₀ (by norm_num) hp
  have hmin : d'.toRat - |d.toRat - d'.toRat| ≤ min d.toRat d'.toRat :=
    le_min (by linarith) (sub_le_self _ (abs_nonneg _))
  have hfar := (hmin.trans_lt hgap).trans_le (mul_le_mul_of_nonneg_right hpow (abs_nonneg _))
  linarith only [hfar, hx, hnear, htriangle, abs_nonneg (x - d'.toRat)]

theorem not_mem_positional (d : Decimal) : 'e' ∉ d.positional := by
  obtain ⟨l, hl, ht, he, -⟩ := exists_positional d
  rw [← ht, NumberLiteral.text, he]
  intro hm
  simp only [Option.map_none, Option.getD_none, List.append_nil, List.mem_append] at hm
  rcases hm with hm | hm
  · exact absurd (hl.whole _ hm) (by decide)
  · cases hf : l.fraction with
    | none => simp [hf] at hm
    | some f =>
      simp only [hf, Option.map_some, Option.getD_some, List.mem_cons, Char.reduceEq, false_or] at hm
      exact absurd (hl.fraction f hf _ hm) (by decide)

/-- Only in scientific notation there is a mark of an exponent. -/
theorem mem_general (d : Decimal) (precision : Nat) : 'e' ∈ d.general precision ↔
    ¬ (-4 ≤ d.exponentOfLeading precision ∧ d.exponentOfLeading precision < precision) := by
  unfold general
  simp only
  split
  · next hx => simp [hx, d.not_mem_positional]
  · next hx => simp [hx, scientific]

theorem toRat_leading (d : Decimal) (precision : Nat) :
    toRat ⟨d.coefficient, 1 - precision⟩ * 10 ^ d.exponentOfLeading precision = d.toRat := by
  rw [toRat, mul_assoc, ← zpow_add₀ (by norm_num), exponentOfLeading, toRat]
  congr 2
  ring

/-- In one notation equal numbers have one text, with any number of digits. -/
theorem general_congr {p : Nat} (h : d.HasDigits precision) (h' : d'.HasDigits p) (he : d.toRat = d'.toRat)
    (hn : 'e' ∈ d.general precision ↔ 'e' ∈ d'.general p) : d.general precision = d'.general p := by
  have hx : d.exponentOfLeading precision = d'.exponentOfLeading p :=
    le_antisymm (h.exponentOfLeading_le h' he) (h'.exponentOfLeading_le h he.symm)
  have hleading : toRat ⟨d.coefficient, 1 - precision⟩ = toRat ⟨d'.coefficient, 1 - p⟩ := by
    have hten : (10 : ℚ) ^ d'.exponentOfLeading p ≠ 0 := by positivity
    rw [← d.toRat_leading precision, ← d'.toRat_leading p, hx] at he
    exact mul_right_cancel₀ hten he
  rw [mem_general, mem_general, not_iff_not, hx] at hn
  simp only [general, scientific, hx, positional_congr he, positional_congr hleading]
  exact if_congr hn rfl rfl

end

end Decimal

/-! ## Reading and printing -/

/-- What a literal of at most 15 digits is printed as is the text of a decimal that it stands for. -/
theorem NumberLiteral.exists_generalText {l : NumberLiteral} {q p : Nat}
    (hq : ∃ d : Decimal, d.coefficient < 10 ^ q ∧ d.toRat = l.decimal.toRat)
    (hlo : 1 / 10 ^ (300 : Nat) ≤ l.decimal.toRat) (hhi : l.decimal.toRat ≤ 10 ^ (300 : Nat))
    (hqp : q ≤ p) (hp : p ≤ 15) : ∃ d : Decimal,
      d.HasDigits p ∧ d.toRat = l.decimal.toRat ∧ l.value.generalText p = d.general p := by
  obtain ⟨d, hd, he⟩ := hq
  obtain ⟨units, h, hread, hclose⟩ := Decimal.exists_toBinary64 hlo hhi
  have hpos : 0 < l.decimal.toRat := lt_of_lt_of_le (by positivity) hlo
  have hc : 0 < d.coefficient := @Decimal.coefficient_pos d 1 (by rwa [mul_one, he])
  obtain ⟨d', hd', he'⟩ := Decimal.HasDigits.exists_of_lt hc
    (hd.trans_le (Nat.pow_le_pow_right (by decide) hqp))
  rw [he] at he'
  have hu : units ≠ 0 := by
    rintro rfl
    rw [Nat.cast_zero, zero_div, zero_sub, abs_neg, abs_of_pos hpos] at hclose
    linarith
  have hone : 0 < unitsPerOne := Nat.two_pow_pos _
  have hnearest := Decimal.isNearest_rounded hd'.precision_pos (Nat.pos_of_ne_zero hu) hone
  have hrounded := hnearest.eq_of_close hd' hp (by rwa [he'])
  refine ⟨d', hd', he', ?_⟩
  rw [NumberLiteral.value, hread, Binary64.generalText]
  have hclamp : max 1 (min p maxPrecision) = p := by
    have := hd'.precision_pos
    simp only [maxPrecision]
    omega
  simp only [hclamp, hu, if_false, Binary64.signText, hrounded, Bool.false_eq_true, List.nil_append]

/-- A literal of at most 15 digits is printed as what it stands for with enough digits to hold them; the text is one
for all of these numbers of digits, but for the notation. -/
theorem NumberLiteral.denotes_generalText (l : NumberLiteral) {q : Nat}
    (hq : ∃ d : Decimal, d.coefficient < 10 ^ q ∧ d.toRat = l.decimal.toRat)
    (hlo : 1 / 10 ^ (300 : Nat) ≤ l.decimal.toRat) (hhi : l.decimal.toRat ≤ 10 ^ (300 : Nat)) :
    (∀ p, q ≤ p → p ≤ 15 → Denotes (l.value.generalText p) l.decimal.toRat) ∧
    ∀ p p', q ≤ p → p ≤ 15 → q ≤ p' → p' ≤ 15 →
      ('e' ∈ l.value.generalText p ↔ 'e' ∈ l.value.generalText p') →
      l.value.generalText p = l.value.generalText p' := by
  constructor
  · intro p hqp hp
    obtain ⟨d, -, he, ht⟩ := exists_generalText hq hlo hhi hqp hp
    rw [ht, ← he]
    exact Decimal.denotes_general d p
  · intro p p' hqp hp hqp' hp' hn
    obtain ⟨d, hd, he, ht⟩ := exists_generalText hq hlo hhi hqp hp
    obtain ⟨d', hd', he', ht'⟩ := exists_generalText hq hlo hhi hqp' hp'
    rw [ht, ht'] at hn ⊢
    exact Decimal.general_congr hd hd' (he.trans he'.symm) hn

/-- Twelve and a half millionths, printed with three digits and with fifteen. -/
theorem NumberLiteral.denotes_generalText_millionths :
    let l : NumberLiteral := ⟨['1'], some ['2', '5'], some ⟨'e', some '-', ['0', '5']⟩⟩
    Denotes (l.value.generalText 3) l.decimal.toRat ∧ l.value.generalText 3 = l.value.generalText 15 := by
  intro l
  have hvalue : l.decimal.toRat = 125 / 10 ^ (7 : Nat) := by
    rw [show l.decimal = ⟨125, -7⟩ by decide, Decimal.toRat]
    norm_num
  have hlo : 1 / 10 ^ (300 : Nat) ≤ l.decimal.toRat :=
    calc (1 / 10 ^ (300 : Nat) : ℚ)
        ≤ 1 / 10 ^ (7 : Nat) := one_div_pow_le_one_div_pow_of_le (by norm_num) (by decide)
      _ ≤ l.decimal.toRat := by rw [hvalue]; norm_num
  have hhi : l.decimal.toRat ≤ 10 ^ (300 : Nat) :=
    le_trans (by rw [hvalue]; norm_num) (one_le_pow₀ (by norm_num))
  have h := denotes_generalText l (q := 3) ⟨l.decimal, by decide, rfl⟩ hlo hhi
  exact ⟨h.1 3 (by decide) (by decide),
    h.2 3 15 (by decide) (by decide) (by decide) (by decide) (by decide +kernel)⟩

end DeskCalculator
