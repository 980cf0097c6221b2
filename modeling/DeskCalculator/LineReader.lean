import DeskCalculator.Lexeme

/-!
# Reading items line by line

A line reader holds what is left of the current line and the lines after it. Taking an item, or
skipping to a character, moves on to the next line when the current one has nothing to offer; at the
end of the text no line is left and the line number stays.
-/

namespace DeskCalculator

/-- A text that is being read: the place in the current line, the number of that line (zero before
the first is read), and the lines that follow. -/
structure LineReader where
  cursor : Cursor
  line : Nat
  upcoming : List (List Char)
  deriving DecidableEq

namespace LineReader

def ofLines (lines : List (List Char)) : LineReader := ⟨.atStart [], 0, lines⟩

/-- How many characters have not been taken yet. -/
def characters (r : LineReader) : Nat := r.cursor.rest.length + r.upcoming.flatten.length

/-- Takes the next item from a place on; there is none when only blanks are left. -/
def itemFrom (cursor : Cursor) (line : Nat) (upcoming : List (List Char)) :
    Option Item × LineReader :=
  match cursor.next?, upcoming with
  | some located, _ => (some located.item, ⟨located.after, line, upcoming⟩)
  | none, [] => (none, ⟨.atStart [], line, []⟩)
  | none, text :: upcoming => itemFrom (.atStart text) (line + 1) upcoming

/-- Moves past the next occurrence of a character from a place on, or to the end of the text. -/
def skipFrom (target : Char) (cursor : Cursor) (line : Nat) (upcoming : List (List Char)) :
    Bool × LineReader :=
  match cursor.skipPast? target, upcoming with
  | some cursor, _ => (true, ⟨cursor, line, upcoming⟩)
  | none, [] => (false, ⟨.atStart [], line, []⟩)
  | none, text :: upcoming => skipFrom target (.atStart text) (line + 1) upcoming

def takeItem (r : LineReader) : Option Item × LineReader := itemFrom r.cursor r.line r.upcoming

/-- Moves past the next occurrence of a character, and says whether there was one. -/
def skipPast (r : LineReader) (target : Char) : Bool × LineReader :=
  skipFrom target r.cursor r.line r.upcoming

/-! ## Reading uses characters up -/

/-- A count that every item taken lowers and that is never more than the characters. -/
structure Shrinks (size : LineReader → Nat) : Prop where
  takeItem (r : LineReader) :
    size r.takeItem.2 + (if r.takeItem.1.isSome then 1 else 0) ≤ size r
  le_characters (r : LineReader) : size r ≤ r.characters

theorem characters_itemFrom (cursor : Cursor) (line : Nat) (upcoming : List (List Char)) :
    (itemFrom cursor line upcoming).2.characters +
        (if (itemFrom cursor line upcoming).1.isSome then 1 else 0) ≤
      (mk cursor line upcoming).characters := by
  induction upcoming generalizing cursor line with
  | nil =>
    rw [itemFrom.eq_def]
    split
    · next h =>
      have := Cursor.length_rest_of_next? h
      simp [characters]; omega
    · simp [characters, Cursor.atStart]
    · next h => cases h
  | cons text upcoming ih =>
    rw [itemFrom.eq_def]
    split
    · next h =>
      have := Cursor.length_rest_of_next? h
      simp [characters]; omega
    · next h => cases h
    · next h =>
      cases h
      refine Nat.le_trans (ih _ _) ?_
      simp [characters, Cursor.atStart]

theorem characters_skipFrom (target : Char) (cursor : Cursor) (line : Nat)
    (upcoming : List (List Char)) :
    (skipFrom target cursor line upcoming).2.characters ≤
      (mk cursor line upcoming).characters := by
  induction upcoming generalizing cursor line with
  | nil =>
    rw [skipFrom.eq_def]
    split
    · next h =>
      have := Cursor.length_rest_of_skipPast? h
      simp [characters]; omega
    · simp [characters, Cursor.atStart]
    · next h => cases h
  | cons text upcoming ih =>
    rw [skipFrom.eq_def]
    split
    · next h =>
      have := Cursor.length_rest_of_skipPast? h
      simp [characters]; omega
    · next h => cases h
    · next h =>
      cases h
      refine Nat.le_trans (ih _ _) ?_
      simp [characters, Cursor.atStart]

theorem shrinks_characters : Shrinks characters :=
  ⟨fun r => characters_itemFrom r.cursor r.line r.upcoming, fun _ => Nat.le_refl _⟩

theorem characters_skipPast (r : LineReader) (target : Char) :
    (r.skipPast target).2.characters ≤ r.characters :=
  characters_skipFrom target r.cursor r.line r.upcoming

end LineReader

end DeskCalculator
