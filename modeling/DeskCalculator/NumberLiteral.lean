import DeskCalculator.Decimal.Basic

/-!
# Number literals

A literal has digits before the point, digits after it, or both, and may have an exponent. `scan?`
takes the longest literal that a text starts with: an exponent mark without digits is left alone.
-/

namespace DeskCalculator

/-- The exponent of a literal as it is written: a mark, an optional sign, digits. -/
structure ExponentPart where
  mark : Char
  sign : Option Char
  digits : List Char
  deriving DecidableEq

namespace ExponentPart

def splitSign : List Char → Option Char × List Char
  | '+' :: rest => (some '+', rest)
  | '-' :: rest => (some '-', rest)
  | rest => (none, rest)

/-- The exponent that a text starts with, and what follows. -/
def scan? : List Char → Option (ExponentPart × List Char)
  | [] => none
  | mark :: rest =>
    if mark = 'e' ∨ mark = 'E' then
      let (sign, body) := splitSign rest
      if body.takeWhile Char.isDigit = [] then none
      else some (⟨mark, sign, body.takeWhile Char.isDigit⟩, body.dropWhile Char.isDigit)
    else none

def text (e : ExponentPart) : List Char := e.mark :: (e.sign.toList ++ e.digits)

def value (e : ExponentPart) : Int :=
  let size : Int := Nat.ofDigitChars 10 e.digits 0
  if e.sign = some '-' then -size else size

theorem splitSign_append (cs : List Char) : (splitSign cs).1.toList ++ (splitSign cs).2 = cs := by
  unfold splitSign; split <;> simp

theorem text_append_of_scan? {cs : List Char} {e : ExponentPart} {rest : List Char}
    (h : scan? cs = some (e, rest)) : e.text ++ rest = cs := by
  unfold scan? at h
  split at h
  · cases h
  · next mark body =>
    split at h
    · simp only at h
      split at h
      · cases h
      · cases h
        simp [text, splitSign_append]
    · cases h

end ExponentPart

/-- A literal as it is written; `fraction` is what follows the point, if there is one. -/
structure NumberLiteral where
  whole : List Char
  fraction : Option (List Char)
  exponent : Option ExponentPart
  deriving DecidableEq

namespace NumberLiteral

/-- Completes a literal with the exponent that follows its digits, if one does. -/
def withExponent (whole : List Char) (fraction : Option (List Char)) (rest : List Char) :
    NumberLiteral × List Char :=
  match ExponentPart.scan? rest with
  | some (exponent, rest) => (⟨whole, fraction, some exponent⟩, rest)
  | none => (⟨whole, fraction, none⟩, rest)

/-- The longest literal that a text starts with, and what follows. -/
def scan? (text : List Char) : Option (NumberLiteral × List Char) :=
  let whole := text.takeWhile Char.isDigit
  match text.dropWhile Char.isDigit with
  | '.' :: rest =>
    let fraction := rest.takeWhile Char.isDigit
    if whole = [] ∧ fraction = [] then none
    else some (withExponent whole (some fraction) (rest.dropWhile Char.isDigit))
  | rest => if whole = [] then none else some (withExponent whole none rest)

def text (l : NumberLiteral) : List Char :=
  l.whole ++ (l.fraction.map ('.' :: ·)).getD [] ++ (l.exponent.map ExponentPart.text).getD []

def decimal (l : NumberLiteral) : Decimal :=
  let fraction := l.fraction.getD []
  { coefficient := Nat.ofDigitChars 10 (l.whole ++ fraction) 0
    exponent := (l.exponent.map ExponentPart.value).getD 0 - fraction.length }

/-- The binary64 number nearest to a literal. -/
def value (l : NumberLiteral) : Binary64 := l.decimal.toBinary64

/-! ## What is scanned is what is written -/

theorem text_append_withExponent (whole : List Char) (fraction : Option (List Char))
    (rest : List Char) :
    (withExponent whole fraction rest).1.text ++ (withExponent whole fraction rest).2 =
      whole ++ (fraction.map ('.' :: ·)).getD [] ++ rest := by
  unfold withExponent
  split
  · next e tail h => simp [text, ← ExponentPart.text_append_of_scan? h]
  · simp [text]

theorem text_append_of_scan? {cs : List Char} {l : NumberLiteral} {rest : List Char}
    (h : scan? cs = some (l, rest)) : l.text ++ rest = cs := by
  have hcs := List.takeWhile_append_dropWhile (p := Char.isDigit) (l := cs)
  unfold scan? at h
  simp only at h
  split at h
  · next tail hd =>
    split at h
    · cases h
    · injection h with h
      have := text_append_withExponent (cs.takeWhile Char.isDigit)
        (some (tail.takeWhile Char.isDigit)) (tail.dropWhile Char.isDigit)
      rw [h] at this
      rw [hd] at hcs
      rw [this]
      simpa using hcs
  · split at h
    · cases h
    · injection h with h
      have := text_append_withExponent (cs.takeWhile Char.isDigit) none (cs.dropWhile Char.isDigit)
      rw [h] at this
      simpa using this

theorem whole_withExponent (whole : List Char) (fraction : Option (List Char)) (rest : List Char) :
    (withExponent whole fraction rest).1.whole = whole := by
  unfold withExponent; split <;> rfl

theorem fraction_withExponent (whole : List Char) (fraction : Option (List Char))
    (rest : List Char) : (withExponent whole fraction rest).1.fraction = fraction := by
  unfold withExponent; split <;> rfl

theorem text_ne_nil_of_scan? {cs : List Char} {l : NumberLiteral} {rest : List Char}
    (h : scan? cs = some (l, rest)) : l.text ≠ [] := by
  unfold scan? at h
  simp only at h
  split at h
  · split at h
    · cases h
    · injection h with h
      have := fraction_withExponent (cs.takeWhile Char.isDigit)
        (some (List.takeWhile Char.isDigit ‹_›)) (List.dropWhile Char.isDigit ‹_›)
      rw [h] at this
      dsimp only at this
      simp [text, this]
  · split at h
    · cases h
    · next hw =>
      injection h with h
      have := whole_withExponent (cs.takeWhile Char.isDigit) none (cs.dropWhile Char.isDigit)
      rw [h] at this
      dsimp only at this
      simp [text, this, hw]

end NumberLiteral

end DeskCalculator
