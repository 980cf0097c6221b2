import DeskCalculator.Proofs.Lexing.Lines
import DeskCalculator.Proofs.Stream.Pieces

/-!
# The lines of the items that a stream delivers

A reader's items with the numbers of their lines. Taking an item leaves the reader on its line, and the
end of the text leaves it on the last one.
-/

namespace DeskCalculator

open Text

namespace LineReader

def numbered (r : LineReader) : List (Item × Nat) := numberedFrom r.line (r.cursor.rest :: r.upcoming)

theorem numbered_of_nothing (line : Nat) : (mk (.atStart []) line []).numbered = [] := by
  simp [numbered, numberedFrom, Cursor.atStart, itemsOf_nil]

/-- The number that the last line has, once it is reached. -/
def lastLine (r : LineReader) : Nat := r.line + r.upcoming.length

theorem itemFrom_of_numbered_nil {cursor : Cursor} {line : Nat} {upcoming : List (List Char)}
    (h : (mk cursor line upcoming).numbered = []) :
    itemFrom cursor line upcoming = (none, ⟨.atStart [], line + upcoming.length, []⟩) := by
  induction upcoming generalizing cursor line with
  | nil =>
    rw [itemFrom.eq_def]
    rcases next?_cases cursor with ⟨hn, -⟩ | ⟨located, -, hi⟩
    · simp [hn]
    · simp [numbered, numberedFrom, hi] at h
  | cons text upcoming ih =>
    rw [itemFrom.eq_def]
    rcases next?_cases cursor with ⟨hn, hi⟩ | ⟨located, -, hi⟩
    · have hrest : (mk (.atStart text) (line + 1) upcoming).numbered = [] := by
        simpa [numbered, numberedFrom, hi, Cursor.atStart] using h
      simp only [hn]
      rw [ih hrest, List.length_cons, Nat.add_assoc, Nat.add_comm 1]
    · simp [numbered, numberedFrom, hi] at h

theorem itemFrom_of_numbered_cons {cursor : Cursor} {line : Nat} {upcoming : List (List Char)} {item : Item}
    {number : Nat} {rest : List (Item × Nat)} (h : (mk cursor line upcoming).numbered = (item, number) :: rest) :
    ∃ r, itemFrom cursor line upcoming = (some item, r) ∧ r.line = number ∧ r.numbered = rest ∧
      r.lastLine = line + upcoming.length := by
  induction upcoming generalizing cursor line with
  | nil =>
    rw [itemFrom.eq_def]
    rcases next?_cases cursor with ⟨-, hi⟩ | ⟨located, hn, hi⟩
    · simp [numbered, numberedFrom, hi] at h
    · simp only [numbered, numberedFrom, hi, List.map_cons, List.cons_append, List.cons.injEq, Prod.mk.injEq] at h
      obtain ⟨⟨rfl, rfl⟩, rfl⟩ := h
      exact ⟨⟨located.after, line, []⟩, by simp [hn], rfl, rfl, rfl⟩
  | cons text upcoming ih =>
    rw [itemFrom.eq_def]
    rcases next?_cases cursor with ⟨hn, hi⟩ | ⟨located, hn, hi⟩
    · have hrest : (mk (.atStart text) (line + 1) upcoming).numbered = (item, number) :: rest := by
        simpa [numbered, numberedFrom, hi, Cursor.atStart] using h
      obtain ⟨r, hr, hline, hnumbered, hlast⟩ := ih hrest
      refine ⟨r, by simp [hn, hr], hline, hnumbered, ?_⟩
      rw [hlast, List.length_cons, Nat.add_assoc, Nat.add_comm 1]
    · simp only [numbered, numberedFrom, hi, List.map_cons, List.cons_append, List.cons.injEq, Prod.mk.injEq] at h
      obtain ⟨⟨rfl, rfl⟩, rfl⟩ := h
      exact ⟨⟨located.after, line, text :: upcoming⟩, by simp [hn], rfl, rfl, rfl⟩

theorem takeItem_of_numbered_nil {r : LineReader} (h : r.numbered = []) :
    r.takeItem = (none, ⟨.atStart [], r.lastLine, []⟩) := itemFrom_of_numbered_nil h

theorem takeItem_of_numbered_cons {r : LineReader} {item : Item} {number : Nat} {rest : List (Item × Nat)}
    (h : r.numbered = (item, number) :: rest) :
    ∃ r', r.takeItem = (some item, r') ∧ r'.line = number ∧ r'.numbered = rest ∧ r'.lastLine = r.lastLine :=
  itemFrom_of_numbered_cons h

theorem numbered_ofLines (bytes : List UInt8) :
    (ofLines (lines bytes)).numbered = numberedItems (decode bytes) := by
  rw [← numberedItems_decode]
  simp [numbered, ofLines, numberedFrom, Cursor.atStart, itemsOf_nil]

end LineReader

theorem TokenStream.pieces_ofBytes (bytes : List UInt8) :
    (ofSource (.ofBytes bytes none)).pieces = (itemsOf (decode bytes)).map .item := by
  rw [pieces_of_none rfl, ← flatMap_itemsOf_lines]
  simp [ofSource, Source.ofBytes, LineReader.items, LineReader.ofLines, Cursor.atStart, itemsOf_nil, lines]

end DeskCalculator
