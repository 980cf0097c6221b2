import Mathlib.Algebra.Order.Field.Power
import Mathlib.Data.Rat.Cast.Order
import Mathlib.Tactic.Ring
import Mathlib.Tactic.FieldSimp
import Mathlib.Tactic.NormNum
import DeskCalculator.Decimal.General
import DeskCalculator.Proofs.Lexing.Literal

/-!
# Decimals written as literals

What a decimal is written as, in either notation, is a literal without a sign, and that literal stands for
the very same number: only zeros at the end of a fraction are left out.
-/

namespace DeskCalculator

-- Powers mean the same whatever else is imported.
attribute [local instance (high)] instPowNat

def Decimal.toRat (d : Decimal) : ℚ := d.coefficient * 10 ^ d.exponent

/-- The text is a literal that stands for the number, with nothing rounded. -/
def Denotes (text : List Char) (number : ℚ) : Prop :=
  ∃ l : NumberLiteral, l.WellFormed ∧ l.text = text ∧ l.decimal.toRat = number

/-! ## Digits -/

theorem isDigit_of_mem_toDigits {n : Nat} {c : Char} (h : c ∈ Nat.toDigits 10 n) : c.isDigit = true :=
  Nat.isDigit_of_mem_toDigits (by omega) (by omega) h

theorem isDigit_of_mem_leftpad {digits : List Char} (hd : ∀ c ∈ digits, c.isDigit = true) {n : Nat} :
    ∀ c ∈ digits.leftpad n '0', c.isDigit = true := by
  intro c hc
  rw [List.leftpad, List.mem_append] at hc
  rcases hc with hc | hc
  · rw [List.eq_of_mem_replicate hc]
    rfl
  · exact hd c hc

theorem ofDigitChars_leftpad (n : Nat) (digits : List Char) :
    Nat.ofDigitChars 10 (digits.leftpad n '0') 0 = Nat.ofDigitChars 10 digits 0 := by
  rw [List.leftpad, Nat.ofDigitChars_append, Nat.ofDigitChars_replicate_zero, Nat.mul_zero]

namespace Decimal

theorem exists_trailing_zeros (digits : List Char) :
    ∃ zeros, digits = dropTrailingZeros digits ++ List.replicate zeros '0' := by
  have hsplit := List.takeWhile_append_dropWhile (p := (· = '0')) (l := digits.reverse)
  have hzeros : digits.reverse.takeWhile (· = '0') =
      List.replicate (digits.reverse.takeWhile (· = '0')).length '0' := by
    rw [List.eq_replicate_iff]
    refine ⟨rfl, ?_⟩
    intro c hc
    simpa using List.mem_takeWhile_imp hc
  refine ⟨(digits.reverse.takeWhile (· = '0')).length, ?_⟩
  rw [dropTrailingZeros, ← List.reverse_replicate, ← hzeros, ← List.reverse_append, hsplit, List.reverse_reverse]

/-- The digits of a fraction and the zeros that are left out take up all its places. -/
theorem fractionText_cases (n : Nat) {places : Nat} (hp : 0 < places) : ∃ digits zeros,
    fractionText n places = (if digits = [] then [] else '.' :: digits) ∧ (∀ c ∈ digits, c.isDigit = true) ∧
      digits.length + zeros = places ∧ Nat.ofDigitChars 10 digits 0 * 10 ^ zeros = n % 10 ^ places := by
  have hlt : n % 10 ^ places < 10 ^ places := Nat.mod_lt _ (Nat.pow_pos (by omega))
  have hle := (Nat.length_toDigits_le_iff (by omega) hp).mpr hlt
  obtain ⟨zeros, hz⟩ := exists_trailing_zeros ((Nat.toDigits 10 (n % 10 ^ places)).leftpad places '0')
  have hdigits := isDigit_of_mem_leftpad (fun _ => isDigit_of_mem_toDigits (n := n % 10 ^ places)) (n := places)
  have hlength := @List.length_leftpad _ places '0' (Nat.toDigits 10 (n % 10 ^ places))
  have hvalue := ofDigitChars_leftpad places (Nat.toDigits 10 (n % 10 ^ places))
  rw [Nat.ofDigitChars_ten_toDigits] at hvalue
  unfold fractionText
  generalize (Nat.toDigits 10 (n % 10 ^ places)).leftpad places '0' = padded at hz hdigits hlength hvalue ⊢
  generalize dropTrailingZeros padded = digits at hz ⊢
  subst hz
  refine ⟨digits, zeros, ?_, ?_, ?_, ?_⟩
  · cases digits <;> rfl
  · intro c hc
    exact hdigits c (List.mem_append_left _ hc)
  · rw [List.length_append, List.length_replicate] at hlength
    omega
  · rw [Nat.ofDigitChars_append, Nat.ofDigitChars_replicate_zero] at hvalue
    rw [Nat.mul_comm, hvalue]

/-! ## Positional notation -/

theorem toRat_decimal (whole : List Char) (fraction : Option (List Char)) :
    (NumberLiteral.mk whole fraction none).decimal.toRat =
      Nat.ofDigitChars 10 (whole ++ fraction.getD []) 0 / 10 ^ (fraction.getD []).length := by
  simp [toRat, NumberLiteral.decimal, div_eq_mul_inv]

/-- The literal of a decimal in positional notation, which has no exponent. -/
def IsPositional (l : NumberLiteral) (d : Decimal) : Prop :=
  l.WellFormed ∧ l.text = d.positional ∧ l.exponent = none ∧ l.decimal.toRat = d.toRat

theorem exists_positional_of_nonneg (coefficient k : Nat) : ∃ l, IsPositional l ⟨coefficient, k⟩ := by
  refine ⟨⟨Nat.toDigits 10 (coefficient * 10 ^ k), none, none⟩, ?_, ?_, rfl, ?_⟩
  · exact ⟨fun _ => isDigit_of_mem_toDigits, by simp, Or.inl Nat.toDigits_ne_nil, by simp⟩
  · simp [NumberLiteral.text, positional]
  · rw [toRat_decimal]
    simp [toRat, Nat.ofDigitChars_ten_toDigits]

theorem exists_positional_of_neg (coefficient : Nat) {k : Nat} (hk : 0 < k) :
    ∃ l, IsPositional l ⟨coefficient, -k⟩ := by
  obtain ⟨digits, zeros, htext, hdigits, hplaces, hvalue⟩ := fractionText_cases coefficient hk
  have hsplit := Nat.div_add_mod coefficient (10 ^ k)
  have he : ¬ (0 : Int) ≤ -k := by omega
  refine ⟨⟨Nat.toDigits 10 (coefficient / 10 ^ k), if digits = [] then none else some digits, none⟩, ?_, ?_, rfl, ?_⟩
  · refine ⟨fun _ => isDigit_of_mem_toDigits, ?_, Or.inl Nat.toDigits_ne_nil, by simp⟩
    intro f hf
    split at hf
    · cases hf
    · cases hf
      exact hdigits
  · simp only [NumberLiteral.text, positional, neg_neg, Int.toNat_natCast, if_neg he, htext]
    split <;> simp
  · -- Nothing is left out but zeros, so the digits read as a whole are the coefficient.
    have hall : Nat.ofDigitChars 10 (Nat.toDigits 10 (coefficient / 10 ^ k) ++ digits) 0 * 10 ^ zeros =
        coefficient := by
      rw [Nat.ofDigitChars_append, Nat.ofDigitChars_ten_toDigits, Nat.ofDigitChars_eq_ofDigitChars_zero,
        Nat.add_mul, hvalue, Nat.mul_right_comm, ← Nat.pow_add, hplaces, hsplit]
    have hfraction : (if digits = [] then none else some digits).getD [] = digits := by
      split <;> simp [*]
    rw [toRat_decimal, hfraction]
    generalize Nat.ofDigitChars 10 (Nat.toDigits 10 (coefficient / 10 ^ k) ++ digits) 0 = all at hall
    simp only [toRat]
    rw [← hall, ← hplaces, zpow_neg, zpow_natCast, pow_add]
    push_cast
    field_simp

theorem exists_positional (d : Decimal) : ∃ l, IsPositional l d := by
  obtain ⟨coefficient, e⟩ := d
  by_cases he : 0 ≤ e
  · obtain ⟨k, rfl⟩ := Int.eq_ofNat_of_zero_le he
    exact exists_positional_of_nonneg coefficient k
  · obtain ⟨k, hk, rfl⟩ : ∃ k : Nat, 0 < k ∧ e = -k := ⟨(-e).toNat, by omega, by omega⟩
    exact exists_positional_of_neg coefficient hk

theorem denotes_positional (d : Decimal) : Denotes d.positional d.toRat := by
  obtain ⟨l, hl, ht, -, hv⟩ := exists_positional d
  exact ⟨l, hl, ht, hv⟩

/-! ## Scientific notation -/

def exponentPart (x : Int) : ExponentPart :=
  ⟨'e', some (if x < 0 then '-' else '+'), (Nat.toDigits 10 x.natAbs).leftpad 2 '0'⟩

theorem wellFormed_exponentPart (x : Int) : (exponentPart x).WellFormed := by
  refine ⟨Or.inl rfl, ?_, ?_, isDigit_of_mem_leftpad fun _ => isDigit_of_mem_toDigits⟩
  · intro c hc
    rw [← Option.some.inj hc]
    split <;> simp
  · simp [exponentPart, List.leftpad, Nat.toDigits_ne_nil]

theorem value_exponentPart (x : Int) : (exponentPart x).value = x := by
  simp only [exponentPart, ExponentPart.value, ofDigitChars_leftpad, Nat.ofDigitChars_ten_toDigits]
  by_cases hn : x < 0
  · simp only [hn, if_true]
    omega
  · simp only [hn, if_false, Option.some.injEq, Char.reduceEq]
    omega

/-- The literal of a decimal in scientific notation is that of its digits with the point behind the first one, and
an exponent. -/
theorem IsPositional.scientific {l : NumberLiteral} {d : Decimal} {precision : Nat}
    (h : IsPositional l ⟨d.coefficient, 1 - precision⟩) :
    let s : NumberLiteral := ⟨l.whole, l.fraction, some (exponentPart (d.exponentOfLeading precision))⟩
    s.WellFormed ∧ s.text = d.scientific precision ∧ s.decimal.toRat = d.toRat := by
  obtain ⟨whole, fraction, exponent⟩ := l
  obtain ⟨hl, ht, rfl, hv⟩ := h
  generalize hx : d.exponentOfLeading precision = x
  refine ⟨⟨hl.whole, hl.fraction, hl.digit, ?_⟩, ?_, ?_⟩
  · intro e he
    rw [← Option.some.inj he]
    exact wellFormed_exponentPart x
  · simp only [Decimal.scientific, hx, ← ht]
    simp [NumberLiteral.text, ExponentPart.text, exponentPart]
  · simp only [NumberLiteral.decimal, Option.map_some, Option.getD_some, value_exponentPart]
    simp only [NumberLiteral.decimal, Option.map_none, Option.getD_none, toRat] at hv ⊢
    have hten : (10 : ℚ) ≠ 0 := by norm_num
    rw [show x - (fraction.getD []).length = 0 - (fraction.getD []).length + x by ring, zpow_add₀ hten, ← mul_assoc,
      hv, mul_assoc, ← zpow_add₀ hten, ← hx, exponentOfLeading]
    congr 2
    ring

theorem denotes_scientific (d : Decimal) (precision : Nat) : Denotes (d.scientific precision) d.toRat := by
  obtain ⟨l, hl⟩ := exists_positional ⟨d.coefficient, 1 - precision⟩
  exact ⟨_, hl.scientific⟩

theorem denotes_general (d : Decimal) (precision : Nat) : Denotes (d.general precision) d.toRat := by
  unfold general
  simp only
  split
  · exact denotes_positional d
  · exact denotes_scientific d precision

end Decimal

end DeskCalculator
