import DeskCalculator.Decimal.Basic

/-!
# General notation

A number is rounded to a number of significant digits and written positionally or scientifically,
by its size. `Decimal.rounded` rounds the exact value once, half to even; the notation depends on
the exponent after rounding.
-/

namespace DeskCalculator

-- Powers mean the same whatever else is imported.
attribute [local instance (high)] instPowNat

namespace Decimal

/-- The exponent of the leading digit of a positive quotient: the largest `x` with
`10 ^ x ≤ num / den`. -/
def leadingExponent (num den : Nat) : Int :=
  if den ≤ num then digitCount (num / den) - 1 else -digitCount ((den - 1) / num)

/-- The decimal of `precision` significant digits nearest to a positive quotient. -/
def rounded (precision num den : Nat) : Decimal :=
  let exponent := leadingExponent num den - (precision - 1)
  let coefficient := nearestNat (num * 10 ^ (-exponent).toNat) (den * 10 ^ exponent.toNat)
  if coefficient = 10 ^ precision then ⟨10 ^ (precision - 1), exponent + 1⟩
  else ⟨coefficient, exponent⟩

/-- The exponent of the leading digit of a decimal of `precision` digits. -/
def exponentOfLeading (d : Decimal) (precision : Nat) : Int := d.exponent + (precision - 1)

/-- One digit before the point, then an exponent with a sign and at least two digits. -/
def scientific (d : Decimal) (precision : Nat) : List Char :=
  let exponent := d.exponentOfLeading precision
  (Decimal.mk d.coefficient (1 - precision)).positional ++
    'e' :: (if exponent < 0 then '-' else '+') ::
      (Nat.toDigits 10 exponent.natAbs).leftpad 2 '0'

/-- Positional from `0.0001` to the last number whose digits all stand before the point. -/
def general (d : Decimal) (precision : Nat) : List Char :=
  let exponent := d.exponentOfLeading precision
  if -4 ≤ exponent ∧ exponent < precision then d.positional else d.scientific precision

end Decimal

/-- The most digits that a result is printed with; 17 tell any two numbers apart. -/
def maxPrecision : Nat := 17

def defaultPrecision : Nat := 6

namespace Binary64

def signText (negative : Bool) : List Char := if negative then ['-'] else []

/-- The text of a number with so many significant digits, at least one and at most 17. -/
def generalText (precision : Nat) : Binary64 → List Char
  | .nan .. => ['n', 'a', 'n']
  | .infinity negative => signText negative ++ ['i', 'n', 'f']
  | .finite negative units _ =>
    let precision := max 1 (min precision maxPrecision)
    signText negative ++
      if units = 0 then ['0']
      else (Decimal.rounded precision units unitsPerOne).general precision

end Binary64

end DeskCalculator
