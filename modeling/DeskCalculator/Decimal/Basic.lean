import DeskCalculator.Binary64.Basic

/-!
# Decimal numbers

A decimal is a whole coefficient times a power of ten. Here are its positional text and the binary64
number nearest to it; both serve numbers of any size.
-/

namespace DeskCalculator

-- Powers mean the same whatever else is imported.
attribute [local instance (high)] instPowNat

/-- The number `coefficient * 10 ^ exponent`. -/
structure Decimal where
  coefficient : Nat
  exponent : Int
  deriving DecidableEq

/-- How many decimal digits a number has; zero has none. -/
def digitCount (n : Nat) : Nat := if n = 0 then 0 else (Nat.toDigits 10 n).length

namespace Decimal

/-! ## Text -/

def dropTrailingZeros (digits : List Char) : List Char :=
  (digits.reverse.dropWhile (· = '0')).reverse

/-- The digits after the point, with the point, of `n / 10 ^ places`; nothing for a whole number. -/
def fractionText (n places : Nat) : List Char :=
  match dropTrailingZeros ((Nat.toDigits 10 (n % 10 ^ places)).leftpad places '0') with
  | [] => []
  | digits => '.' :: digits

/-- Positional notation, with no digit that could be left out. -/
def positional (d : Decimal) : List Char :=
  if 0 ≤ d.exponent then
    Nat.toDigits 10 (d.coefficient * 10 ^ d.exponent.toNat)
  else
    let places := (-d.exponent).toNat
    Nat.toDigits 10 (d.coefficient / 10 ^ places) ++ fractionText d.coefficient places

/-! ## Nearest number -/

/-- The binary64 number nearest to a decimal. A number of more than 400 digits is too large, and one
with more than 400 zeros after the point too small, whatever its digits; so the powers of ten that
are computed stay within reach of the coefficient. -/
def toBinary64 (d : Decimal) : Binary64 :=
  let size := digitCount d.coefficient + d.exponent
  if d.coefficient = 0 ∨ size < -400 then .zero false
  else if 400 < size then .infinity false
  else
    .ofRatio false (d.coefficient * 10 ^ d.exponent.toNat * unitsPerOne)
      (10 ^ (-d.exponent).toNat)

end Decimal

end DeskCalculator
