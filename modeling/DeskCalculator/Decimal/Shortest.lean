import DeskCalculator.Decimal.General

/-!
# The shortest decimal that reads back

The numbers that round to a given count form an interval. `shortest` looks for the coarsest decimal
grid with a point in it, trying on each grid the two neighbours of the exact value.
-/

namespace DeskCalculator

-- Powers mean the same whatever else is imported.
attribute [local instance (high)] instPowNat

/-- The reals that round to a count, in quarters of a unit; both ends belong to it or neither. -/
structure RoundingInterval where
  lower : Nat
  upper : Nat
  closed : Bool

/-- Half the distance to each neighbour. Below a power of two the neighbours are twice as dense,
save at the bottom of the format. The ends round to the even neighbour. -/
def RoundingInterval.of (units : Nat) : RoundingInterval :=
  let step := 2 ^ spacing units
  let narrow := units = 2 ^ fractionBits * step ∧ 0 < spacing units
  { lower := 4 * units - if narrow then step else 2 * step
    upper := 4 * units + 2 * step
    closed := units / step % 2 = 0 }

/-- Is `num / den` quarters of a unit inside? -/
def RoundingInterval.contains (i : RoundingInterval) (num den : Nat) : Bool :=
  if i.closed then i.lower * den ≤ num && num ≤ i.upper * den
  else i.lower * den < num && num < i.upper * den

namespace Decimal

/-- Does the decimal lie in the interval? -/
def inInterval (d : Decimal) (i : RoundingInterval) : Bool :=
  i.contains (4 * (d.coefficient * 10 ^ d.exponent.toNat * unitsPerOne)) (10 ^ (-d.exponent).toNat)

/-- The neighbour of a positive count on the grid of so many significant digits that reads back,
the nearer one if both do, and the upper of two equally near. -/
def shortestWith? (units precision : Nat) : Option Decimal :=
  let exponent := leadingExponent units unitsPerOne - (precision - 1)
  let num := units * 10 ^ (-exponent).toNat
  let den := unitsPerOne * 10 ^ exponent.toNat
  let below : Decimal := ⟨num / den, exponent⟩
  let above : Decimal := ⟨num / den + 1, exponent⟩
  let interval := RoundingInterval.of units
  match below.inInterval interval, above.inInterval interval with
  | true, true => some (if 2 * (num % den) < den then below else above)
  | true, false => some below
  | false, true => some above
  | false, false => none

/-- The decimal of the fewest digits that reads back as a positive count; 17 digits always do. -/
def shortest (units : Nat) : Decimal :=
  ((List.range' 1 maxPrecision).findSome? (shortestWith? units)).getD
    (rounded maxPrecision units unitsPerOne)

end Decimal

/-- The text of a number in a message: the shortest one that reads back, always positional. -/
def Binary64.shortestText : Binary64 → List Char
  | .nan .. => ['N', 'a', 'N']
  | .infinity negative => signText negative ++ ['i', 'n', 'f']
  | .finite negative units _ =>
    signText negative ++ if units = 0 then ['0'] else (Decimal.shortest units).positional

end DeskCalculator
