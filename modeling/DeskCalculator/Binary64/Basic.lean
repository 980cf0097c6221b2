import DeskCalculator.Binary64.Units

/-!
# Binary64 numbers

A number is a sign with a representable count of units, an infinity, or a NaN, which has a sign and a
payload of its own. Numbers and patterns of 64 bits are the same thing: `ofBits` and `toBits` undo one
another.
-/

namespace DeskCalculator

-- Powers mean the same whatever else is imported.
attribute [local instance (high)] instPowNat

/-- The payloads of NaNs: a fraction of zero is an infinity. -/
def Payload (fraction : Nat) : Prop := 0 < fraction ∧ fraction < 2 ^ fractionBits

instance (fraction : Nat) : Decidable (Payload fraction) := inferInstanceAs (Decidable (_ ∧ _))

inductive Binary64 where
  | nan (negative : Bool) (payload : Nat) (valid : Payload payload)
  | infinity (negative : Bool)
  | finite (negative : Bool) (units : Nat) (representable : Representable units)
  deriving DecidableEq

namespace Binary64

/-- The number nearest to `num / den` units, or an infinity where that is too large. -/
def ofRatio (negative : Bool) (num den : Nat) : Binary64 :=
  if h : nearestUnits num den < unitLimit then
    .finite negative (nearestUnits num den) ⟨dvd_nearestUnits num den, h⟩
  else
    .infinity negative

def zero (negative : Bool) : Binary64 := .finite negative 0 ⟨Nat.dvd_zero _, unitLimit_pos⟩

def one : Binary64 := ofRatio false unitsPerOne 1

instance : Inhabited Binary64 := ⟨zero false⟩

/-- The NaN that operations without a result come to. -/
def quietNaN : Binary64 := .nan false (2 ^ (fractionBits - 1)) ⟨by decide, by decide⟩

/-! ## Bit patterns -/

abbrev exponentBits : Nat := 11

/-- The exponent field of infinities and NaNs. -/
abbrev largestExponent : Nat := 2 ^ exponentBits - 1

/-- Reads a pattern of 64 bits: a sign, the exponent and the fraction. -/
def ofBits (bits : UInt64) : Binary64 :=
  let negative := 2 ^ (exponentBits + fractionBits) ≤ bits.toNat
  let exponent := bits.toNat / 2 ^ fractionBits % 2 ^ exponentBits
  let fraction := bits.toNat % 2 ^ fractionBits
  if exponent = largestExponent then
    if h : fraction = 0 then .infinity negative
    else .nan negative fraction ⟨Nat.pos_of_ne_zero h, Nat.mod_lt _ (Nat.two_pow_pos _)⟩
  else if exponent = 0 then
    ofRatio negative fraction 1
  else
    ofRatio negative ((2 ^ fractionBits + fraction) * 2 ^ (exponent - 1)) 1

/-- The pattern of a count without its sign. The leading bit of a normal significand, once
multiplied out, raises the exponent field by one, so one sum serves normal and subnormal counts. -/
def magnitudeBits (units : Nat) : Nat :=
  spacing units * 2 ^ fractionBits + units / 2 ^ spacing units

/-- The pattern of a number without its sign. -/
def magnitude : Binary64 → Nat
  | .nan _ payload _ => largestExponent * 2 ^ fractionBits + payload
  | .infinity _ => largestExponent * 2 ^ fractionBits
  | .finite _ units _ => magnitudeBits units

/-- The sign, which zeros and NaNs have as well. -/
def isNegative : Binary64 → Bool
  | .nan negative _ _ => negative
  | .infinity negative => negative
  | .finite negative _ _ => negative

def toBits (value : Binary64) : UInt64 :=
  UInt64.ofNat
    ((if value.isNegative then 2 ^ (exponentBits + fractionBits) else 0) + value.magnitude)

/-- The count with its sign. -/
def signed (negative : Bool) (units : Nat) : Int :=
  if negative then -(units : Int) else units

/-! ## Tests -/

/-- Zero of either sign. -/
def isZero : Binary64 → Bool
  | .finite _ units _ => units = 0
  | _ => false

/-- Below zero; neither zero nor NaN is. -/
def isBelowZero : Binary64 → Bool
  | .nan .. => false
  | .infinity negative => negative
  | .finite negative units _ => negative && units ≠ 0

end Binary64

end DeskCalculator
