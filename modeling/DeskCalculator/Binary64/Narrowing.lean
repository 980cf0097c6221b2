import DeskCalculator.Binary64.Basic

/-!
# Whole parts and narrow integers

What it takes to turn a number into a whole number of 32 bits: its whole part, the comparison with the
limits, which are numbers themselves, and the cast, which has a result whatever it is given.
-/

namespace DeskCalculator

-- Powers mean the same whatever else is imported.
attribute [local instance (high)] instPowNat

/-- The least whole number of 32 bits. -/
def minInt32 : Int := -2147483648

/-- The greatest whole number of 32 bits. -/
def maxInt32 : Int := 2147483647

namespace Binary64

/-- The whole part, with the sign of the number. Infinities and NaNs stay as they are. -/
def trunc : Binary64 → Binary64
  | .finite negative units _ => ofRatio negative (units / unitsPerOne * unitsPerOne) 1
  | value => value

def isFinite : Binary64 → Bool
  | .finite .. => true
  | _ => false

/-- Is the first number below the second? No NaN is below anything or above it. -/
def lt : Binary64 → Binary64 → Bool
  | .nan .., _ => false
  | _, .nan .. => false
  | .infinity s, .infinity t => s && !t
  | .infinity s, .finite .. => s
  | .finite .., .infinity t => !t
  | .finite s u _, .finite t v _ => signed s u < signed t v

/-- The number nearest to a whole number, which those of 32 bits are themselves. -/
def ofInt (n : Int) : Binary64 := ofRatio (n < 0) (n.natAbs * unitsPerOne) 1

/-- The cast to a whole number of 32 bits. It drops the fraction, stops at the limits, and makes
zero of a NaN. -/
def toInt32 : Binary64 → Int
  | .nan .. => 0
  | .infinity negative => if negative then minInt32 else maxInt32
  | .finite negative units _ => max minInt32 (min maxInt32 (signed negative (units / unitsPerOne)))

end Binary64

end DeskCalculator
