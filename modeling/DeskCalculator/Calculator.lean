import DeskCalculator.Statement

/-!
# Calculators

A calculator evaluates the statements of a text one after the other and keeps the names that they
declare. After an error `recover` throws away the rest of the statement.
-/

namespace DeskCalculator

inductive Outcome where
  | value (value : Binary64)
  | quit
  deriving DecidableEq

namespace TokenStream

/-- What is left to read before the end is sure to be reached. -/
def backlog (s : TokenStream) : Nat := s.reader.characters + s.pushedBack.toList.length

theorem backlog_next {symbols : SymbolTable} {s s' : TokenStream} {op : Operator}
    (h : next symbols s = (.ok (.operator op), s')) : s'.backlog < s.backlog := by
  have := LineReader.shrinks_characters.takeItem s.reader
  unfold next at h
  split at h
  · next hp => cases h; simp [backlog, hp]
  · next hp =>
    simp only at h
    split at h
    · next hi =>
      cases congrArg Prod.snd h
      simp [backlog, hp, hi] at this ⊢; omega
    · cases h
    · unfold atEnd at h; split at h <;> cases h

/-- Delivers the first token that is not a terminator. -/
def nextOfStatement (symbols : SymbolTable) (s : TokenStream) : Except Error Token × TokenStream :=
  match _h : next symbols s with
  | (.ok (.operator .equals), s') => nextOfStatement symbols s'
  | result => result
termination_by s.backlog
decreasing_by exact backlog_next _h

/-- Reads what comes next and evaluates it. The text may end, or ask to quit, where a statement
could begin. -/
def outcome : Evaluating Outcome := do
  let token ← Evaluating.reading nextOfStatement
  if token.isQuit then
    return .quit
  putBack token
  return .value (← statement)

end TokenStream

/-- The text still to be read, and the names declared so far. -/
structure Calculator where
  stream : TokenStream
  symbols : SymbolTable

namespace Calculator

open TokenStream

def evaluateNext (c : Calculator) : Except Error Outcome × Calculator :=
  match outcome c.symbols c.stream with
  | ((r, symbols), stream) => (r, ⟨stream, symbols⟩)

/-- Throws the rest of a statement away, its terminator included. -/
def recover (c : Calculator) : Except Error Unit × Calculator :=
  ((skipPast .equals c.stream).1, ⟨(skipPast .equals c.stream).2, c.symbols⟩)

end Calculator

end DeskCalculator
