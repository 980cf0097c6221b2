import DeskCalculator.NumberLiteral
import DeskCalculator.Text.Decoding
import DeskCalculator.Token

/-!
# Lexemes and the items of a text

A text is a sequence of items between blanks: lexemes, each the longest that starts where it does,
and stray characters, which start none. A cursor stands in a text and takes one item at a time;
`text_append_of_scan?` says that no character is lost, so `items` ends.
-/

namespace DeskCalculator

inductive Lexeme where
  | number (value : Binary64)
  | word (text : String)
  | operator (op : Operator)
  deriving DecidableEq

inductive Item where
  | lexeme (lexeme : Lexeme)
  | stray (c : Char)
  deriving DecidableEq

/-- The characters that may stand between items and mean nothing. -/
def isBlank (c : Char) : Bool :=
  c = ' ' || c = '\t' || c = '\n' || c = '\x0b' || c = '\x0c' || c = '\r'

/-- The item that a text starts with, the characters it takes up, and those after it. -/
def Item.scan? : List Char → Option (Item × List Char × List Char)
  | [] => none
  | c :: cs =>
    match NumberLiteral.scan? (c :: cs) with
    | some (literal, rest) => some (.lexeme (.number literal.value), literal.text, rest)
    | none =>
      if c.isAlpha then
        let word := c :: cs.takeWhile Char.isAlphanum
        some (.lexeme (.word (String.ofList word)), word, cs.dropWhile Char.isAlphanum)
      else
        match Operator.ofSymbol? c with
        | some op => some (.lexeme (.operator op), [c], cs)
        | none => some (.stray c, [c], cs)

theorem Item.text_append_of_scan? {cs text rest : List Char} {item : Item}
    (h : scan? cs = some (item, text, rest)) : text ++ rest = cs := by
  unfold scan? at h
  split at h
  · cases h
  · split at h
    · next hs => cases h; exact NumberLiteral.text_append_of_scan? hs
    · split at h
      · cases h; simp
      · split at h <;> cases h <;> rfl

theorem Item.text_ne_nil_of_scan? {cs text rest : List Char} {item : Item}
    (h : scan? cs = some (item, text, rest)) : text ≠ [] := by
  unfold scan? at h
  split at h
  · cases h
  · split at h
    · next hs => cases h; exact NumberLiteral.text_ne_nil_of_scan? hs
    · split at h
      · cases h; simp
      · split at h <;> cases h <;> simp

/-! ## Cursors -/

/-- A place in a text: the bytes before it and the characters after it. -/
structure Cursor where
  offset : Nat
  rest : List Char
  deriving DecidableEq

/-- An item with the byte at which it starts, and the place after it. -/
structure Located where
  item : Item
  start : Nat
  after : Cursor

namespace Cursor

def atStart (text : List Char) : Cursor := ⟨0, text⟩

def skipBlanks (c : Cursor) : Cursor :=
  ⟨c.offset + Text.utf8Length (c.rest.takeWhile isBlank), c.rest.dropWhile isBlank⟩

/-- The next item; there is none when only blanks are left. -/
def next? (c : Cursor) : Option Located :=
  match Item.scan? c.skipBlanks.rest with
  | some (item, text, rest) =>
    let start := c.skipBlanks.offset
    some ⟨item, start, ⟨start + Text.utf8Length text, rest⟩⟩
  | none => none

/-- The place after the next occurrence of a character, whatever it is part of. -/
def skipPast? (c : Cursor) (target : Char) : Option Cursor :=
  match c.rest.dropWhile (· ≠ target) with
  | [] => none
  | found :: rest =>
    let skipped := c.rest.takeWhile (· ≠ target)
    some ⟨c.offset + Text.utf8Length skipped + found.utf8Size, rest⟩

theorem length_dropWhile_le {α : Type} (p : α → Bool) (l : List α) :
    (l.dropWhile p).length ≤ l.length := (List.dropWhile_suffix p).length_le

theorem length_rest_of_next? {c : Cursor} {located : Located} (h : c.next? = some located) :
    located.after.rest.length < c.rest.length := by
  unfold next? at h
  split at h
  · next item text rest hs =>
    cases h
    have happ := congrArg List.length (Item.text_append_of_scan? hs)
    have hne := List.length_pos_iff.2 (Item.text_ne_nil_of_scan? hs)
    have hle := length_dropWhile_le isBlank c.rest
    simp only [List.length_append, skipBlanks] at happ ⊢
    omega
  · cases h

theorem length_rest_of_skipPast? {c c' : Cursor} {target : Char}
    (h : c.skipPast? target = some c') : c'.rest.length < c.rest.length := by
  unfold skipPast? at h
  split at h
  · cases h
  · next hd =>
    cases h
    have := length_dropWhile_le (· ≠ target) c.rest
    rw [hd] at this
    exact this

def items (c : Cursor) : List Located :=
  match _h : c.next? with
  | none => []
  | some located => located :: items located.after
termination_by c.rest.length
decreasing_by exact length_rest_of_next? _h

end Cursor

end DeskCalculator
