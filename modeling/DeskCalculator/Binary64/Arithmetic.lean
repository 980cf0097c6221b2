import DeskCalculator.Binary64.Basic

/-!
# Arithmetic on binary64 numbers

Each operation computes its exact result as a quotient of whole numbers and rounds it once, to
nearest with ties to even. `pow` multiplies by repeated squaring and rounds every product. Where the
format leaves the sign and the payload of a NaN open, it is `quietNaN`.
-/

namespace DeskCalculator.Binary64

protected def neg : Binary64 → Binary64
  | .nan negative payload h => .nan (!negative) payload h
  | .infinity negative => .infinity (!negative)
  | .finite negative units h => .finite (!negative) units h

/-- A sum of zero is negative only if both terms are. -/
protected def add : Binary64 → Binary64 → Binary64
  | .nan .., _ => quietNaN
  | _, .nan .. => quietNaN
  | .infinity s, .infinity t => if s = t then .infinity s else quietNaN
  | .infinity s, .finite .. => .infinity s
  | .finite .., .infinity t => .infinity t
  | .finite s u _, .finite t v _ =>
    let sum := signed s u + signed t v
    if sum = 0 then zero (s && t) else ofRatio (sum < 0) sum.natAbs 1

protected def sub (x y : Binary64) : Binary64 := x.add y.neg

protected def mul : Binary64 → Binary64 → Binary64
  | .nan .., _ => quietNaN
  | _, .nan .. => quietNaN
  | .infinity s, .infinity t => .infinity (s != t)
  | .infinity s, .finite t v _ => if v = 0 then quietNaN else .infinity (s != t)
  | .finite s u _, .infinity t => if u = 0 then quietNaN else .infinity (s != t)
  | .finite s u _, .finite t v _ => ofRatio (s != t) (u * v) unitsPerOne

protected def div : Binary64 → Binary64 → Binary64
  | .nan .., _ => quietNaN
  | _, .nan .. => quietNaN
  | .infinity _, .infinity _ => quietNaN
  | .infinity s, .finite t _ _ => .infinity (s != t)
  | .finite s _ _, .infinity t => zero (s != t)
  | .finite s u _, .finite t v _ =>
    if v = 0 then
      if u = 0 then quietNaN else .infinity (s != t)
    else
      ofRatio (s != t) (u * unitsPerOne) v

/-- The remainder of division toward zero. It has the sign of the dividend and is never rounded. -/
protected def mod : Binary64 → Binary64 → Binary64
  | .nan .., _ => quietNaN
  | _, .nan .. => quietNaN
  | .infinity _, _ => quietNaN
  | .finite s u h, .infinity _ => .finite s u h
  | .finite s u _, .finite _ v _ => if v = 0 then quietNaN else ofRatio s (u % v) 1

instance : Neg Binary64 := ⟨Binary64.neg⟩
instance : Add Binary64 := ⟨Binary64.add⟩
instance : Sub Binary64 := ⟨Binary64.sub⟩
instance : Mul Binary64 := ⟨Binary64.mul⟩
instance : Div Binary64 := ⟨Binary64.div⟩
instance : Mod Binary64 := ⟨Binary64.mod⟩

/-- The square root. A root that is not whole lies strictly between two whole counts, and so does
the half between them: both round alike, for neighbours of this size are further apart than
one. -/
def sqrt : Binary64 → Binary64
  | .nan .. => quietNaN
  | .infinity negative => if negative then quietNaN else .infinity false
  | .finite negative units h =>
    if units = 0 then .finite negative units h
    else if negative then quietNaN
    else
      let square := units * unitsPerOne
      let root := square.sqrt
      ofRatio false (2 * root + if root * root < square then 1 else 0) 2

/-- Multiplies `acc` by `base ^ n`, squaring the base for each binary digit of `n`. -/
def powNat (base : Binary64) (n : Nat) (acc : Binary64) : Binary64 :=
  let acc := if n % 2 = 1 then acc * base else acc
  if n < 2 then acc else powNat (base * base) (n / 2) acc
termination_by n
decreasing_by omega

/-- The power to a whole exponent; a negative one divides one by the power to its opposite. -/
def pow (base : Binary64) (exponent : Int) : Binary64 :=
  let power := powNat base exponent.natAbs one
  if exponent < 0 then one / power else power

end DeskCalculator.Binary64
