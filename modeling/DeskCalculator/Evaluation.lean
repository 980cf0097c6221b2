import DeskCalculator.Binary64.Arithmetic
import DeskCalculator.Binary64.Narrowing
import DeskCalculator.Error

/-!
# Operations that may fail

Division by zero, roots of negative numbers and exponents that do not fit have no value here. All
else is plain arithmetic.
-/

namespace DeskCalculator.Evaluation

/-- The quotient; zero of either sign divides nothing. -/
def divide (left right : Binary64) : Except Cause Binary64 :=
  if right.isZero then .error .divideByZero else .ok (left / right)

def remainder (left right : Binary64) : Except Cause Binary64 :=
  if right.isZero then .error .moduloByZero else .ok (left % right)

/-- The exponent without its fraction, which has to fit in 32 bits with a sign. The cast comes last,
for it would put a limit in the place of what does not fit. -/
def truncate (value : Binary64) : Except Cause Int :=
  let whole := value.trunc
  if !whole.isFinite || whole.lt (.ofInt minInt32) || (Binary64.ofInt maxInt32).lt whole then
    .error (.exponentOutOfRange value)
  else
    .ok whole.toInt32

/-- The power to an exponent that is truncated first. -/
def power (base exponent : Binary64) : Except Cause Binary64 := do
  return base.pow (← truncate exponent)

/-- The square root; zero of either sign and NaN are not negative. -/
def squareRoot (value : Binary64) : Except Cause Binary64 :=
  if value.isBelowZero then .error (.negativeSqrt value) else .ok value.sqrt

end DeskCalculator.Evaluation
