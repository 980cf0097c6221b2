import DeskCalculator.Binary64.Basic

/-!
# Operators, keywords and tokens

A token is what the grammar sees of a lexeme: a declared name has become its value.
-/

namespace DeskCalculator

inductive Operator where
  | plus
  | minus
  | times
  | divide
  | remainder
  | leftParen
  | rightParen
  | comma
  | equals
  deriving DecidableEq

def Operator.all : List Operator :=
  [.plus, .minus, .times, .divide, .remainder, .leftParen, .rightParen, .comma, .equals]

def Operator.symbol : Operator → Char
  | .plus => '+'
  | .minus => '-'
  | .times => '*'
  | .divide => '/'
  | .remainder => '%'
  | .leftParen => '('
  | .rightParen => ')'
  | .comma => ','
  | .equals => '='

def Operator.ofSymbol? (c : Char) : Option Operator := Operator.all.find? (·.symbol = c)

inductive Keyword where
  | declare
  | exit
  | pow
  | sqrt
  deriving DecidableEq

def Keyword.all : List Keyword := [.declare, .exit, .pow, .sqrt]

def Keyword.word : Keyword → String
  | .declare => "let"
  | .exit => "exit"
  | .pow => "pow"
  | .sqrt => "sqrt"

def Keyword.ofWord? (word : String) : Option Keyword := Keyword.all.find? (·.word = word)

inductive Token where
  | number (value : Binary64)
  | identifier (name : String)
  | operator (op : Operator)
  | keyword (keyword : Keyword)
  | endOfInput
  deriving DecidableEq

/-- Does the token end a session where a statement could begin? The name `x` does unless it has been
declared, and then it is no identifier but a number. -/
def Token.isQuit : Token → Bool
  | .keyword .exit => true
  | .endOfInput => true
  | .identifier name => name = "x"
  | _ => false

def Token.isOperator (token : Token) (op : Operator) : Bool := token = .operator op

end DeskCalculator
