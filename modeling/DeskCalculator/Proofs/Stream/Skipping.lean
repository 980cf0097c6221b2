import DeskCalculator.Proofs.Stream.Eager

/-!
# Skipping in a text that is lexed at once

A stream skips to an operator by its character, over lines that it does not lex. To the eager stream this drops
the items before the operator, and the line reached is the one on which the operator stands.
-/

namespace DeskCalculator

open TokenStream

/-- The items from the first occurrence of an operator on. -/
def fromOperator (op : Operator) (waiting : List (Item × Nat)) : List (Item × Nat) :=
  waiting.dropWhile fun p => !p.1.isOperator op

theorem fromOperator_append {op : Operator} (items : List Item) (line : Nat) (later : List (Item × Nat)) :
    fromOperator op (items.map (fun item => (item, line)) ++ later) =
      match items.dropWhile (fun i => !i.isOperator op) with
      | [] => fromOperator op later
      | item :: rest => (item, line) :: (rest.map (fun item => (item, line)) ++ later) := by
  induction items with
  | nil => rfl
  | cons item items ih => cases ho : item.isOperator op <;> simp_all [fromOperator]

namespace LineReader

variable {op : Operator} (hp : op ≠ .plus) (hm : op ≠ .minus)
include hp hm

theorem skipFrom_of_fromOperator_nil {cursor : Cursor} {line : Nat} {upcoming : List (List Char)}
    (h : fromOperator op (mk cursor line upcoming).numbered = []) :
    skipFrom op.symbol cursor line upcoming = (false, ⟨.atStart [], line + upcoming.length, []⟩) := by
  induction upcoming generalizing cursor line with
  | nil =>
    rw [skipFrom.eq_def]
    rcases skipPast?_cases hp hm cursor with ⟨hs, -⟩ | ⟨c', -, hi⟩
    · simp [hs]
    · simp only [numbered, numberedFrom, fromOperator_append, hi] at h
      cases h
  | cons text upcoming ih =>
    rw [skipFrom.eq_def]
    rcases skipPast?_cases hp hm cursor with ⟨hs, hi⟩ | ⟨c', -, hi⟩
    · have hrest : fromOperator op (mk (.atStart text) (line + 1) upcoming).numbered = [] := by
        simpa [numbered, numberedFrom, fromOperator_append, hi, Cursor.atStart] using h
      simp only [hs]
      rw [ih hrest, List.length_cons, Nat.add_assoc, Nat.add_comm 1]
    · simp [numbered, numberedFrom, fromOperator_append, hi] at h

theorem skipFrom_of_fromOperator_cons {cursor : Cursor} {line : Nat} {upcoming : List (List Char)} {item : Item}
    {number : Nat} {rest : List (Item × Nat)}
    (h : fromOperator op (mk cursor line upcoming).numbered = (item, number) :: rest) :
    ∃ r, skipFrom op.symbol cursor line upcoming = (true, r) ∧ r.line = number ∧ r.numbered = rest ∧
      r.lastLine = line + upcoming.length := by
  induction upcoming generalizing cursor line with
  | nil =>
    rw [skipFrom.eq_def]
    rcases skipPast?_cases hp hm cursor with ⟨-, hi⟩ | ⟨c', hs, hi⟩
    · simp only [numbered, numberedFrom, fromOperator_append, hi] at h
      cases h
    · simp only [numbered, numberedFrom, fromOperator_append, hi, List.cons.injEq, Prod.mk.injEq] at h
      obtain ⟨⟨rfl, rfl⟩, rfl⟩ := h
      exact ⟨⟨c', line, []⟩, by simp [hs], rfl, rfl, rfl⟩
  | cons text upcoming ih =>
    rw [skipFrom.eq_def]
    rcases skipPast?_cases hp hm cursor with ⟨hs, hi⟩ | ⟨c', hs, hi⟩
    · have hrest : fromOperator op (mk (.atStart text) (line + 1) upcoming).numbered = (item, number) :: rest := by
        simpa [numbered, numberedFrom, fromOperator_append, hi, Cursor.atStart] using h
      obtain ⟨r, hr, hline, hnumbered, hlast⟩ := ih hrest
      refine ⟨r, by simp [hs, hr], hline, hnumbered, ?_⟩
      rw [hlast, List.length_cons, Nat.add_assoc, Nat.add_comm 1]
    · simp only [numbered, numberedFrom, fromOperator_append, hi, List.cons.injEq, Prod.mk.injEq] at h
      obtain ⟨⟨rfl, rfl⟩, rfl⟩ := h
      exact ⟨⟨c', line, text :: upcoming⟩, by simp [hs], rfl, rfl, rfl⟩

end LineReader

/-- The eager stream without what stands before the end of an operator. -/
def EagerStream.skipPast (op : Operator) (e : EagerStream) : EagerStream :=
  if e.pushedBack = some (.operator op) then { e with pushedBack := none }
  else
    match fromOperator op e.waiting with
    | [] => ⟨[], e.lastLine, none, e.lastLine⟩
    | (_, line) :: rest => ⟨rest, e.lastLine, none, line⟩

theorem eager_skipPast (op : Operator) (hp : op ≠ .plus) (hm : op ≠ .minus) {s : TokenStream}
    (hf : s.failure = none) : ∃ s', skipPast op s = (.ok (), s') ∧ s'.eager = s.eager.skipPast op ∧ s'.failure = none := by
  unfold skipPast EagerStream.skipPast
  by_cases hb : s.pushedBack = some (.operator op)
  · rw [if_pos hb, if_pos (show s.eager.pushedBack = some (.operator op) from hb)]
    exact ⟨_, rfl, rfl, hf⟩
  · rw [if_neg hb, if_neg (show s.eager.pushedBack ≠ some (.operator op) from hb)]
    cases hw : fromOperator op s.eager.waiting with
    | nil =>
      have hs : s.reader.skipPast op.symbol = (false, ⟨.atStart [], s.reader.lastLine, []⟩) :=
        LineReader.skipFrom_of_fromOperator_nil hp hm hw
      simp only [hs, atEnd, hf]
      refine ⟨_, rfl, ?_, rfl⟩
      simp [eager, LineReader.numbered_of_nothing, LineReader.lastLine, TokenStream.line]
    | cons first rest =>
      obtain ⟨item, line⟩ := first
      obtain ⟨r, hs, rfl, rfl, hlast⟩ := LineReader.skipFrom_of_fromOperator_cons hp hm hw
      have hs : s.reader.skipPast op.symbol = (true, r) := hs
      simp only [hs]
      refine ⟨_, rfl, ?_, hf⟩
      have hlast : r.lastLine = s.reader.lastLine := hlast
      simp [eager, hlast, TokenStream.line]

end DeskCalculator
