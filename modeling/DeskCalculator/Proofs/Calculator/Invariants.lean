import DeskCalculator.Proofs.Calculator.Statements
import DeskCalculator.Proofs.Grammar.Moves

/-!
# Invariants of reading

Evaluating does two things to a stream: it takes the next answer, and it puts a token back right after that has come.
What both keep is kept by every part of the grammar and by every evaluation, however these end.
-/

namespace DeskCalculator

open TokenStream

/-- A property of streams that the two steps of reading keep. -/
structure TokenStream.Invariant (symbols : SymbolTable) (I : TokenStream → Prop) : Prop where
  taken {s answer s'} (hs : I s) (ht : next symbols s = (answer, s')) : I s'
  looked {s token s'} (hs : I s) (ht : next symbols s = (.ok token, s')) : I (s'.holding token)

namespace TokenStream.Invariant

variable {symbols : SymbolTable} {I : TokenStream → Prop} {s s' : TokenStream} (hI : Invariant symbols I) (hs : I s)
include hI hs

theorem of_move (h : Move symbols s s') : I s' := by
  cases h with
  | take ht _ => exact hI.taken hs ht
  | look ht => exact hI.looked hs ht
  | fail ht => exact hI.taken hs ht

theorem of_moves (h : Moves symbols s s') : I s' := by
  induction h with
  | refl => exact hs
  | tail _ hm ih => exact hI.of_move ih hm

theorem of_reads {part : Part} {r : Except Error Binary64} (h : Reads symbols part s r s')
    (hp : part ≠ .argument .equals) : I s' :=
  hI.of_moves hs (moves_of_reads h hp)

theorem of_delivers {ws : List Token} (h : Delivers symbols s ws s') : I s' := by
  induction h with
  | nil => exact hs
  | cons ht _ ih => exact ih (hI.taken hs ht)

theorem of_opens (h : Opens symbols s s') : I s' := by
  obtain ⟨⟨n, hd⟩, -⟩ := h
  exact hI.of_delivers hs hd

theorem of_evaluates {r : Except Error Outcome} {c' : Calculator} (h : Evaluates symbols s r c') : I c'.stream := by
  cases h with
  | unread ht | quit ht => exact hI.taken hs ht
  | expression _ _ _ h => exact hI.of_reads hs h (by simp)
  | name_unread hd ht | equals_unread hd ht | equals_missing hd ht => exact hI.taken (hI.of_delivers hs hd) ht
  | name_missing hd ht => exact hI.of_move (hI.of_delivers hs hd) (move_abandoned ht)
  | value_fails hd h | redeclared hd h | declared hd h => exact hI.of_reads (hI.of_delivers hs hd) h (by simp)

theorem of_evaluateNext : I (Calculator.mk s symbols).evaluateNext.2.stream := by
  obtain ⟨s₀, ho⟩ := exists_opens symbols s
  exact hI.of_evaluates (hI.of_opens hs ho) (Calculator.evaluates_of_evaluateNext (c := ⟨s, symbols⟩) ho rfl)

theorem of_statement : I (statement symbols s).2 := by
  cases ht : next symbols s with
  | mk answer s₁ =>
    cases answer with
    | error e =>
      rw [statement, Evaluating.bind_of_error ht]
      exact hI.taken hs ht
    | ok token =>
      by_cases hd : token = .keyword .declare
      · -- A declaration leaves what the evaluation of the same stream does.
        subst hd
        have ho : Opens symbols s s := ⟨⟨0, .nil⟩, by simp [ht]⟩
        rw [statement_of_declare ht]
        have := hI.of_evaluateNext hs
        rwa [Calculator.evaluateNext_of_declare (c := ⟨s, symbols⟩) ho ht rfl] at this
      · obtain ⟨r, s', h⟩ := Calculator.exists_reads symbols s
        rw [statement_of_expression ht hd h]
        exact hI.of_reads hs h (by simp)

end TokenStream.Invariant

/-- Reading does not make the input fail. -/
theorem invariant_failure (symbols : SymbolTable) (failure : Option String) :
    Invariant symbols fun s => s.failure = failure where
  taken hs ht := (failure_of_next ht).trans hs
  looked hs ht := (failure_of_next ht).trans hs

end DeskCalculator
