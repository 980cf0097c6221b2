import DeskCalculator.Evaluation
import DeskCalculator.TokenStream

/-!
# The grammar of expressions

An expression is evaluated while it is read, with one token of lookahead:

* expression := term (("+" | "-") term)*
* term := primary (("*" | "/" | "%") primary)*
* primary := number | "(" expression ")" | ("-" | "+") primary
  | "pow" "(" expression "," expression ")" | "sqrt" "(" expression ")"

The token that ends an expression or a term is put back. The functions of this module count down
fuel; `runs` says that `fuel s` is enough for a stream `s`, and the last section reads without any.
-/

namespace DeskCalculator

/-- A reading that may also run out of fuel, which is no result at all. -/
abbrev Attempt := ExceptT Error (StateT TokenStream Option)

instance : MonadLift Reading Attempt := ⟨fun action s => some (action s)⟩

namespace Grammar

open TokenStream

section
variable (symbols : SymbolTable)

def expect (op : Operator) : Reading Unit := do
  let token ← next symbols
  if token.isOperator op then return ()
  reject token (.expectedToken op.symbol)

def outOfFuel {α : Type} : Attempt α := fun _ => none

mutual

def expression : Nat → Attempt Binary64
  | 0 => outOfFuel
  | n + 1 => do
    let left ← term n
    expressionRest n left

/-- Adds the terms that follow to what stands to their left. -/
def expressionRest : Nat → Binary64 → Attempt Binary64
  | 0, _ => outOfFuel
  | n + 1, left => do
    match ← next symbols with
    | .operator .plus =>
      let right ← term n
      expressionRest n (left + right)
    | .operator .minus =>
      let right ← term n
      expressionRest n (left - right)
    | token =>
      putBack token
      return left

def term : Nat → Attempt Binary64
  | 0 => outOfFuel
  | n + 1 => do
    let left ← primary n
    termRest n left

/-- Applies the factors that follow to what stands to their left. A zero divisor is reported at the
line of its operator. -/
def termRest : Nat → Binary64 → Attempt Binary64
  | 0, _ => outOfFuel
  | n + 1, left => do
    let token ← next symbols
    let line ← currentLine
    match token with
    | .operator .times =>
      let right ← primary n
      termRest n (left * right)
    | .operator .divide =>
      let right ← primary n
      let quotient ← check line (Evaluation.divide left right)
      termRest n quotient
    | .operator .remainder =>
      let right ← primary n
      let rest ← check line (Evaluation.remainder left right)
      termRest n rest
    | token =>
      putBack token
      return left

/-- Reads a primary. Powers and roots are computed before their closing parenthesis is read, at the
line of the token that ended the last argument. -/
def primary : Nat → Attempt Binary64
  | 0 => outOfFuel
  | n + 1 => do
    match ← next symbols with
    | .number value => return value
    | .operator .leftParen =>
      let value ← expression n
      expect symbols .rightParen
      return value
    | .operator .minus =>
      let value ← primary n
      return -value
    | .operator .plus => primary n
    | .keyword .pow =>
      expect symbols .leftParen
      let base ← expression n
      expect symbols .comma
      let exponent ← expression n
      let line ← currentLine
      let value ← check line (Evaluation.power base exponent)
      expect symbols .rightParen
      return value
    | .keyword .sqrt =>
      expect symbols .leftParen
      let operand ← expression n
      let line ← currentLine
      let value ← check line (Evaluation.squareRoot operand)
      expect symbols .rightParen
      return value
    | .identifier name => fail (.undefinedVariable name)
    | token => reject token .expectedPrimary

end

end

end Grammar

end DeskCalculator
