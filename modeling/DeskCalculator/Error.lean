import DeskCalculator.Decimal.Shortest

/-!
# Errors

What goes wrong in a statement has a cause and a line. A failing stream is an error of its own, and
the only one that ends a session.
-/

namespace DeskCalculator

inductive Cause where
  | badToken (text : String)
  | pushbackOverflow
  | expectedToken (symbol : Char)
  | expectedPrimary
  | expectedName
  | expectedAssignment (name : String)
  | duplicateDeclaration (name : String)
  | undefinedVariable (name : String)
  | divideByZero
  | moduloByZero
  | negativeSqrt (operand : Binary64)
  | exponentOutOfRange (exponent : Binary64)
  deriving DecidableEq

inductive Error where
  | statement (cause : Cause) (line : Nat)
  | io (reason : String)
  deriving DecidableEq

def Cause.message : Cause → String
  | .badToken text => s!"Bad token '{text}'."
  | .pushbackOverflow => "putback() into a full buffer."
  | .expectedToken symbol => s!"'{symbol}' expected."
  | .expectedPrimary => "Primary expected."
  | .expectedName => "Name expected in declaration."
  | .expectedAssignment name => s!"'=' missing in declaration of '{name}'."
  | .duplicateDeclaration name => s!"'{name}' declared twice."
  | .undefinedVariable name => s!"Undefined variable '{name}'."
  | .divideByZero => "Divide by zero."
  | .moduloByZero => "'%': divide by zero."
  | .negativeSqrt operand =>
    s!"Cannot take the square root of negative value {String.ofList operand.shortestText}."
  | .exponentOutOfRange exponent =>
    s!"Exponent {String.ofList exponent.shortestText} does not fit in a 32-bit integer."

def Error.message : Error → String
  | .statement cause line => s!"Error on line {line}: {cause.message}"
  | .io reason => s!"I/O error: {reason}"

def Error.isFatal : Error → Bool
  | .statement .. => false
  | .io _ => true

end DeskCalculator
