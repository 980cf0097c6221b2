import DeskCalculator.LineReader
import DeskCalculator.SymbolTable

/-!
# Token streams

A stream delivers the tokens of a text one at a time and takes one back. A word becomes a token
when it is reached, by the symbol table of that moment: a name declared by one statement is a number
in the next.
-/

namespace DeskCalculator

/-- A text as it comes in: its lines, and what reading fails with once they are used up, if it fails
and does not just end. -/
structure Source where
  lines : List (List Char)
  failure : Option String

/-- Some bytes as a source. Where reading fails at their end a last line without a newline is never
seen, since the failure comes while it is being read. -/
def Source.ofBytes (bytes : List UInt8) (failure : Option String) : Source :=
  let lines := Text.splitLines bytes
  let complete := if failure.isSome then lines.filter (·.getLast? = some 10) else lines
  ⟨complete.map Text.decode, failure⟩

/-- The token of a lexeme: keywords come first, then declared names. -/
def Token.ofLexeme (symbols : SymbolTable) : Lexeme → Token
  | .number value => .number value
  | .operator op => .operator op
  | .word word =>
    match Keyword.ofWord? word with
    | some reserved => .keyword reserved
    | none =>
      match symbols.find? word with
      | some value => .number value
      | none => .identifier word

/-- Tokens still to be delivered: the one that was put back, then those of the text. -/
structure TokenStream where
  reader : LineReader
  failure : Option String
  pushedBack : Option Token
  deriving DecidableEq

/-- An action on a stream that may fail; a failure leaves the stream where the action stopped. -/
abbrev Reading := ExceptT Error (StateM TokenStream)

theorem Reading.bind_of_ok {α β : Type} {x : Reading α} {f : α → Reading β} {a : α}
    {s s' : TokenStream} (h : x s = (.ok a, s')) : (x >>= f) s = f a s' := by
  simp only [bind, ExceptT.bind, ExceptT.mk, ExceptT.bindCont, StateT.bind, h]

theorem Reading.bind_of_error {α β : Type} {x : Reading α} {f : α → Reading β} {e : Error}
    {s s' : TokenStream} (h : x s = (.error e, s')) : (x >>= f) s = (.error e, s') := by
  simp only [bind, ExceptT.bind, ExceptT.mk, ExceptT.bindCont, StateT.bind, h]
  rfl

namespace TokenStream

def ofSource (source : Source) : TokenStream :=
  ⟨.ofLines source.lines, source.failure, none⟩

/-- The number of the line that is being read, or zero before the first. -/
def line (s : TokenStream) : Nat := s.reader.line

/-- What a read that finds no more text comes to. -/
def atEnd {α : Type} (s : TokenStream) (value : α) : Except Error α :=
  match s.failure with
  | some reason => .error (.io reason)
  | none => .ok value

/-- Delivers the next token. A stray character is an error and is skipped; at the end of the text
every call delivers the end. -/
def next (symbols : SymbolTable) : Reading Token := fun s =>
  match s.pushedBack with
  | some token => (.ok token, { s with pushedBack := none })
  | none =>
    let s' := { s with reader := s.reader.takeItem.2 }
    match s.reader.takeItem.1 with
    | some (.lexeme lexeme) => (.ok (.ofLexeme symbols lexeme), s')
    | some (.stray c) => (.error (.statement (.badToken c.toString) s'.line), s')
    | none => (s'.atEnd .endOfInput, s')

/-- Takes a token back, if none is waiting. -/
def putBack (token : Token) : Reading Unit := fun s =>
  match s.pushedBack with
  | some _ => (.error (.statement .pushbackOverflow s.line), s)
  | none => (.ok (), { s with pushedBack := some token })

/-- Throws tokens away up to and including an operator. Text is skipped character by character, so
nothing in it can fail; the end of the text will do as well. -/
def skipPast (target : Operator) : Reading Unit := fun s =>
  if s.pushedBack = some (.operator target) then (.ok (), { s with pushedBack := none })
  else
    let s' := { s with reader := (s.reader.skipPast target.symbol).2, pushedBack := none }
    if (s.reader.skipPast target.symbol).1 then (.ok (), s') else (s'.atEnd (), s')

/-! ## Errors at a line -/

def currentLine : Reading Nat := fun s => (.ok s.line, s)

def fail {α : Type} (cause : Cause) : Reading α := fun s =>
  (.error (.statement cause s.line), s)

def check {α : Type} (line : Nat) : Except Cause α → Reading α
  | .ok value => pure value
  | .error cause => throw (.statement cause line)

/-- Gives a statement up because of a token. A terminator is put back, for discarding the statement
is to stop at it; any other token is dropped. -/
def reject {α : Type} (offender : Token) (cause : Cause) : Reading α := do
  let line ← currentLine
  if offender.isOperator .equals then
    putBack offender
  throw (.statement cause line)

/-! ## Reading uses tokens up

What a stream still holds can be counted in several ways; all of them count the token that was put
back in the same way. -/

/-- What a token that was put back counts for. The end counts for nothing, and neither does the
terminator, which is put back when a statement is given up. -/
def weight : Token → Nat
  | .endOfInput => 0
  | .operator .equals => 0
  | _ => 1

def load (size : LineReader → Nat) (s : TokenStream) : Nat :=
  size s.reader + (s.pushedBack.map weight).getD 0

theorem pushedBack_next (symbols : SymbolTable) (s : TokenStream) :
    (next symbols s).2.pushedBack = none := by
  unfold next
  split
  · rfl
  · next h => simp only; split <;> exact h

theorem next_putBack {symbols : SymbolTable} {token : Token} {s : TokenStream}
    (h : s.pushedBack = none) :
    next symbols { s with pushedBack := some token } = (.ok token, s) := by
  obtain ⟨reader, failure, pushedBack⟩ := s
  cases h
  rfl

theorem putBack_of_none {token : Token} {s : TokenStream} (h : s.pushedBack = none) :
    putBack token s = (.ok (), { s with pushedBack := some token }) := by
  simp [putBack, h]

section
variable {size : LineReader → Nat} (shrinks : LineReader.Shrinks size)

theorem weight_le_one (token : Token) : weight token ≤ 1 := by
  unfold weight; split <;> omega

theorem load_putBack (token : Token) (s : TokenStream) :
    (putBack token s).2.load size ≤ s.load size + weight token := by
  unfold putBack
  split <;> simp [load, *]

theorem load_reject {α : Type} (offender : Token) (cause : Cause) (s : TokenStream) :
    ∃ e s', (reject offender cause : Reading α) s = (.error e, s') ∧
      s'.load size ≤ s.load size := by
  unfold reject
  rw [Reading.bind_of_ok (show currentLine s = (.ok s.line, s) from rfl)]
  by_cases h : offender.isOperator .equals
  · have hl : (putBack offender s).2.load size ≤ s.load size + weight offender :=
      load_putBack offender s
    have hw : weight offender = 0 := by
      simp only [Token.isOperator, decide_eq_true_eq] at h
      rw [h]; rfl
    simp only [h, if_true]
    cases hp : putBack offender s with | mk r s'
    rw [hp, hw] at hl
    cases r with
    | error e => exact ⟨e, s', Reading.bind_of_error hp, hl⟩
    | ok u => exact ⟨_, s', Reading.bind_of_ok hp, hl⟩
  · simp only [h]
    exact ⟨_, s, rfl, Nat.le_refl _⟩

/-- What an answer of `next` has used up: the weight of the token, or a stray character. -/
def spent : Except Error Token → Nat
  | .ok token => weight token
  | .error e => if e.isFatal then 0 else 1

include shrinks

theorem load_next (symbols : SymbolTable) (s : TokenStream) :
    (next symbols s).2.load size + spent (next symbols s).1 ≤ s.load size := by
  have := shrinks.takeItem s.reader
  unfold next
  simp only
  split
  · next h => simp [load, h, spent]
  · next h =>
    split
    · next l hl =>
      have := weight_le_one (.ofLexeme symbols l)
      simp [load, h, hl, spent] at *; omega
    · next hl => simp [load, h, hl, spent, Error.isFatal] at *; omega
    · next hl =>
      unfold atEnd
      split <;> simp [load, h, hl, weight, spent, Error.isFatal] at * <;> omega

end

theorem load_skipPast (target : Operator) (s : TokenStream) :
    (skipPast target s).2.load LineReader.characters ≤ s.load LineReader.characters := by
  have := LineReader.characters_skipPast s.reader target.symbol
  unfold skipPast
  simp only
  split
  · simp [load]
  · split <;> simp [load] <;> omega

end TokenStream

end DeskCalculator
