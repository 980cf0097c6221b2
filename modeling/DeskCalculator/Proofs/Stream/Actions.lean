import DeskCalculator.TokenStream

/-!
# What the actions on a stream come to

Equations for each action: a token that was put back is the next one, skipping looks at the token that was put back
before it looks at the text, and a statement that is given up keeps its offender only if that is the terminator.
-/

namespace DeskCalculator

namespace TokenStream

def holding (s : TokenStream) (token : Token) : TokenStream := { s with pushedBack := some token }

/-- The stream once a statement is given up because of a token. -/
def abandoned (s : TokenStream) (offender : Token) : TokenStream :=
  if offender = .operator .equals then s.holding offender else s

theorem putBack_eq_holding {s : TokenStream} (h : s.pushedBack = none) (token : Token) :
    putBack token s = (.ok (), s.holding token) := putBack_of_none h

theorem next_holding {symbols : SymbolTable} {s : TokenStream} (h : s.pushedBack = none)
    (token : Token) : next symbols (s.holding token) = (.ok token, s) := next_putBack h

theorem next_of_held {symbols : SymbolTable} {s : TokenStream} {token : Token}
    (h : s.pushedBack = some token) : next symbols s = (.ok token, { s with pushedBack := none }) := by
  simp only [next, h]

theorem eq_holding_of_next {symbols : SymbolTable} {s s' : TokenStream} {held token : Token}
    (hp : s.pushedBack = some held) (h : next symbols s = (.ok token, s')) : s = s'.holding token := by
  obtain ⟨reader, failure, pushedBack⟩ := s
  cases hp
  cases h
  rfl

theorem pushedBack_of_next {symbols : SymbolTable} {s s' : TokenStream} {r : Except Error Token}
    (h : next symbols s = (r, s')) : s'.pushedBack = none := by
  have := pushedBack_next symbols s
  rwa [h] at this

theorem failure_next (symbols : SymbolTable) (s : TokenStream) : (next symbols s).2.failure = s.failure := by
  unfold next
  split
  · rfl
  · simp only
    split <;> rfl

theorem failure_of_next {symbols : SymbolTable} {s s' : TokenStream} {r : Except Error Token}
    (h : next symbols s = (r, s')) : s'.failure = s.failure := by
  rw [← failure_next symbols s, h]

/-! ## Behind the text -/

theorem atEnd_of_some {α : Type} {s : TokenStream} {reason : String} (h : s.failure = some reason) (value : α) :
    s.atEnd value = .error (.io reason) := by
  rw [atEnd, h]

theorem atEnd_of_none {α : Type} {s : TokenStream} (h : s.failure = none) (value : α) : s.atEnd value = .ok value := by
  rw [atEnd, h]

theorem of_atEnd_eq_error {α : Type} {s : TokenStream} {value : α} {e : Error} (h : s.atEnd value = .error e) :
    ∃ reason, s.failure = some reason ∧ e = .io reason := by
  unfold atEnd at h
  split at h
  · next reason hf =>
    cases h
    exact ⟨reason, hf, rfl⟩
  · cases h

theorem of_atEnd_eq_ok {α : Type} {s : TokenStream} {value value' : α} (h : s.atEnd value = .ok value') :
    s.failure = none := by
  unfold atEnd at h
  split at h
  · cases h
  · assumption

/-! ## Skipping -/

theorem skipPast_of_held {op : Operator} {s : TokenStream} (h : s.pushedBack = some (.operator op)) :
    skipPast op s = (.ok (), { s with pushedBack := none }) := if_pos h

theorem skipPast_of_not_held {op : Operator} {s : TokenStream} (h : s.pushedBack ≠ some (.operator op)) :
    skipPast op s = (if (s.reader.skipPast op.symbol).1 then .ok () else s.atEnd (),
      { s with reader := (s.reader.skipPast op.symbol).2, pushedBack := none }) := by
  unfold skipPast
  rw [if_neg h]
  simp only
  split <;> rfl

/-- Skipping empties the slot, and reads on unless it was the operator that was put back. -/
theorem snd_skipPast (op : Operator) (s : TokenStream) : (skipPast op s).2 =
    { s with
      reader := if s.pushedBack = some (.operator op) then s.reader else (s.reader.skipPast op.symbol).2
      pushedBack := none } := by
  split
  · next h => rw [skipPast_of_held h]
  · next h => rw [skipPast_of_not_held h]

theorem pushedBack_skipPast (op : Operator) (s : TokenStream) : (skipPast op s).2.pushedBack = none := by
  rw [snd_skipPast]

theorem failure_skipPast (op : Operator) (s : TokenStream) : (skipPast op s).2.failure = s.failure := by
  rw [snd_skipPast]

/-- Only the failure of the input makes skipping fail, where nothing was found. -/
theorem of_skipPast_error {op : Operator} {s : TokenStream} {e : Error} (h : (skipPast op s).1 = .error e) :
    s.pushedBack ≠ some (.operator op) ∧ (s.reader.skipPast op.symbol).1 = false ∧
      ∃ reason, s.failure = some reason ∧ e = .io reason := by
  by_cases hb : s.pushedBack = some (.operator op)
  · rw [skipPast_of_held hb] at h
    cases h
  · rw [skipPast_of_not_held hb] at h
    cases hfound : (s.reader.skipPast op.symbol).1 with
    | true =>
      rw [hfound] at h
      cases h
    | false =>
      rw [hfound] at h
      exact ⟨hb, rfl, of_atEnd_eq_error h⟩

theorem skipPast_of_failure_none {op : Operator} {s : TokenStream} (h : s.failure = none) :
    (skipPast op s).1 = .ok () := by
  cases he : (skipPast op s).1 with
  | ok => rfl
  | error e =>
    obtain ⟨-, -, reason, hf, -⟩ := of_skipPast_error he
    rw [h] at hf
    cases hf

/-! ## Giving a statement up -/

theorem reject_eq {α : Type} {s : TokenStream} (h : s.pushedBack = none) (offender : Token)
    (cause : Cause) : (reject offender cause : Reading α) s =
      (.error (.statement cause s.line), s.abandoned offender) := by
  unfold reject abandoned
  rw [Reading.bind_of_ok (show currentLine s = (.ok s.line, s) from rfl)]
  by_cases ho : offender = .operator .equals
  · have hi : offender.isOperator .equals = true := by simp [Token.isOperator, ho]
    simp only [hi, if_true]
    rw [Reading.bind_of_ok (putBack_eq_holding h offender), if_pos ho]
    rfl
  · have hi : offender.isOperator .equals = false := by simp [Token.isOperator, ho]
    simp only [hi]
    rw [if_neg ho]
    rfl

end TokenStream

end DeskCalculator
