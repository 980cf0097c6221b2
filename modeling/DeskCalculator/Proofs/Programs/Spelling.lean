import Mathlib.Data.List.Chain
import DeskCalculator.Proofs.Grammar.Derivation
import DeskCalculator.Proofs.Lexing.Lines

/-!
# Writing expressions down

A spelling is what one item of a program is written as. `Layout` puts blanks anywhere between
spellings; what the grammar puts side by side needs none, but for the one behind `let`. The items of
such a text are the spellings (`itemsOf_of_layout`).
-/

namespace DeskCalculator

/-- A literal without a sign. -/
structure Literal where
  literal : NumberLiteral
  wellFormed : literal.WellFormed

/-- A letter and any letters and digits, and no reserved word. -/
structure Name where
  initial : Char
  others : List Char
  letter : initial.isAlpha = true
  alphanumeric : ∀ c ∈ others, c.isAlphanum = true
  free : Keyword.ofWord? (String.ofList (initial :: others)) = none

def Name.text (n : Name) : String := String.ofList (n.initial :: n.others)

/-- The leaves of an expression as it is written. -/
inductive Atom where
  | literal (l : Literal)
  | name (n : Name)

inductive Spelling where
  | atom (a : Atom)
  | operator (op : Operator)
  | keyword (k : Keyword)

def Alphabet.spellings : Alphabet Atom Spelling := ⟨.atom, .operator, .keyword⟩

namespace Spelling

def chars : Spelling → List Char
  | .atom (.literal l) => l.literal.text
  | .atom (.name n) => n.initial :: n.others
  | .operator op => [op.symbol]
  | .keyword k => k.word.toList

def lexeme : Spelling → Lexeme
  | .atom (.literal l) => .number l.literal.value
  | .atom (.name n) => .word n.text
  | .operator op => .operator op
  | .keyword k => .word k.word

def isOperator : Spelling → Bool
  | .operator _ => true
  | _ => false

end Spelling

/-- Spellings one after the other, with blanks before, between and behind them, and at least one behind
each `let`. -/
inductive Layout : List Spelling → List Char → Prop where
  | nil {blanks} (hb : ∀ c ∈ blanks, isBlank c = true) : Layout [] blanks
  | cons {blanks : List Char} {w ws text} (hb : ∀ c ∈ blanks, isBlank c = true) (rest : Layout ws text)
      (hw : w = .keyword .declare → ∃ c ∈ text.head?, isBlank c = true) :
      Layout (w :: ws) (blanks ++ (w.chars ++ text))

/-! ## Spellings side by side -/

/-- The two can be told apart without blanks, or have one between them. -/
def Separable (w w' : Spelling) : Prop :=
  w.isOperator = true ∨ w'.isOperator = true ∨ w = .keyword .declare

theorem isChain_append {ws ws' : List Spelling} (h : ws.IsChain Separable) (h' : ws'.IsChain Separable)
    (hw : ∀ w ∈ ws'.head?, w.isOperator = true) : (ws ++ ws').IsChain Separable := by
  rw [List.isChain_append]
  refine ⟨h, h', ?_⟩
  intro x _ y hy
  exact Or.inr (Or.inl (hw y hy))

theorem isChain_operator {op : Operator} {ws : List Spelling} (h : ws.IsChain Separable) :
    (Spelling.operator op :: ws).IsChain Separable := by
  rw [List.isChain_cons]
  exact ⟨fun y _ => Or.inl rfl, h⟩

theorem isChain_function {k : Keyword} {op : Operator} {ws : List Spelling} (h : ws.IsChain Separable) :
    (Spelling.keyword k :: .operator op :: ws).IsChain Separable := by
  rw [List.isChain_cons]
  refine ⟨?_, isChain_operator h⟩
  intro y hy
  cases hy
  exact Or.inr (Or.inl rfl)

theorem head_of_rest {p : Phrase Atom} {e : Expr Atom} {ws : List Spelling} (h : Derives .spellings p e ws)
    {c : Chain} {left : Expr Atom} (hp : p = .rest c left) : ∀ w ∈ ws.head?, w.isOperator = true := by
  cases h with
  | rest_nil => simp
  | rest_cons => intro w hw; cases hw; rfl
  | _ => cases hp

theorem isChain_of_derives {p : Phrase Atom} {e : Expr Atom} {ws : List Spelling}
    (h : Derives .spellings p e ws) : ws.IsChain Separable := by
  induction h with
  | chain _ hr iho ihr => exact isChain_append iho ihr (head_of_rest hr rfl)
  | rest_nil => exact .nil
  | rest_cons _ _ hr iho ihr => exact isChain_operator (isChain_append iho ihr (head_of_rest hr rfl))
  | leaf a => exact .singleton _
  | sign _ ih => exact isChain_operator ih
  | group _ ih => exact isChain_operator (isChain_append ih (.singleton _) (by simp [Alphabet.spellings, Spelling.isOperator]))
  | power _ _ ihb ihe =>
    refine isChain_function (isChain_append ihb (isChain_operator (isChain_append ihe (.singleton _) ?_)) ?_)
    · simp [Alphabet.spellings, Spelling.isOperator]
    · simp [Alphabet.spellings, Spelling.isOperator]
  | root _ ih =>
    exact isChain_function (isChain_append ih (.singleton _) (by simp [Alphabet.spellings, Spelling.isOperator]))

/-! ## The items of a layout -/

/-- Neither a literal nor a word goes on with the text. -/
def Apart (text : List Char) : Prop := ∀ c ∈ text.head?, c.isAlphanum = false ∧ c ≠ '.'

theorem Apart.bounded {text : List Char} (h : Apart text) : NumberLiteral.Bounded text := by
  intro c hc
  obtain ⟨ha, hd⟩ := h c hc
  have hdigit : c.isDigit = false := by
    simp only [Char.isAlphanum, Bool.or_eq_false_iff] at ha
    exact ha.2
  refine ⟨hdigit, hd, ?_, ?_⟩
  · rintro rfl; cases ha
  · rintro rfl; cases ha

theorem scan?_operator (op : Operator) (text : List Char) :
    Item.scan? (op.symbol :: text) = some (.lexeme (.operator op), [op.symbol], text) := by
  have hchar := @Item.Begins.char op.symbol text (by cases op <;> rfl) (by cases op <;> rfl)
  rw [Item.ofChar_eq_operator.mpr rfl] at hchar
  exact Item.scan?_eq_some_iff.mpr hchar

theorem scan?_word {c : Char} {cs text : List Char} (hc : c.isAlpha = true) (hcs : ∀ d ∈ cs, d.isAlphanum = true)
    (ht : Apart text) : Item.scan? (c :: cs ++ text) =
      some (.lexeme (.word (String.ofList (c :: cs))), c :: cs, text) :=
  Item.scan?_eq_some_iff.mpr (.word hc hcs fun d hd => (ht d hd).1)

theorem scan?_literal {l : NumberLiteral} (h : l.WellFormed) {text : List Char} (ht : Apart text) :
    Item.scan? (l.text ++ text) = some (.lexeme (.number l.value), l.text, text) :=
  Item.scan?_eq_some_iff.mpr (.literal (NumberLiteral.scan?_text h ht.bounded))

theorem word_cases (k : Keyword) : ∃ c cs, k.word.toList = c :: cs ∧ c.isAlpha = true ∧
    ∀ d ∈ cs, d.isAlphanum = true := by
  cases k with
  | declare => exact ⟨'l', ['e', 't'], rfl, rfl, by simp⟩
  | exit => exact ⟨'e', ['x', 'i', 't'], rfl, rfl, by simp⟩
  | pow => exact ⟨'p', ['o', 'w'], rfl, rfl, by simp⟩
  | sqrt => exact ⟨'s', ['q', 'r', 't'], rfl, rfl, by simp⟩

theorem scan?_spelling {w : Spelling} {text : List Char} (h : w.isOperator = true ∨ Apart text) :
    Item.scan? (w.chars ++ text) = some (.lexeme w.lexeme, w.chars, text) := by
  cases w with
  | operator op => exact scan?_operator op text
  | atom a =>
    rcases h with h | h
    · cases h
    · cases a with
      | literal l => exact scan?_literal l.wellFormed h
      | name n => exact scan?_word n.letter n.alphanumeric h
  | keyword k =>
    rcases h with h | h
    · cases h
    · obtain ⟨c, cs, hk, hc, hcs⟩ := word_cases k
      have hs := scan?_word hc hcs h
      rw [← hk, String.ofList_toList] at hs
      exact hs

theorem isBlank_chars (w : Spelling) (text : List Char) :
    ∀ c ∈ (w.chars ++ text).head?, isBlank c = false := by
  intro c hc
  cases w with
  | operator op =>
    cases hc
    exact op.isBlank_symbol
  | atom a =>
    cases a with
    | name n =>
      cases hc
      exact isBlank_of_isAlphanum (by simp [Char.isAlphanum, n.letter])
    | literal l =>
      have hl := @scan?_literal _ l.wellFormed [] (by simp [Apart])
      have hne := Item.text_ne_nil_of_scan? hl
      have hm : c ∈ l.literal.text := by
        cases ht : l.literal.text with
        | nil => exact absurd ht hne
        | cons d ds => simp [Spelling.chars, ht] at hc; simp [hc]
      exact isBlank_of_mem_literal l.wellFormed hm
  | keyword k =>
    obtain ⟨d, ds, hk, hd, -⟩ := word_cases k
    simp only [Spelling.chars, hk, List.cons_append, List.head?_cons, Option.mem_some] at hc
    subst hc
    exact isBlank_of_isAlphanum (by simp [Char.isAlphanum, hd])

theorem apart_of_layout {ws : List Spelling} {text : List Char} (h : Layout ws text)
    (hw : ∀ w ∈ ws.head?, w.isOperator = true) : Apart text := by
  cases h with
  | nil hb =>
    intro c hc
    exact isAlphanum_of_blank (hb c (List.mem_of_mem_head? hc))
  | @cons blanks w ws text hb _ _ =>
    cases blanks with
    | cons d blanks =>
      intro c hc
      cases hc
      exact isAlphanum_of_blank (hb _ (by simp))
    | nil =>
      have hop := hw w rfl
      cases w with
      | operator op =>
        intro c hc
        cases hc
        exact ⟨op.isAlphanum_symbol, by cases op <;> decide⟩
      | _ => cases hop

theorem itemsOf_of_layout {ws : List Spelling} {text : List Char} (h : Layout ws text)
    (hc : ws.IsChain Separable) : itemsOf text = ws.map fun w => .lexeme w.lexeme := by
  induction h with
  | nil hb => exact itemsOf_of_blank (by simpa using @dropWhile_append_run _ _ [] hb (by simp))
  | @cons blanks w ws text hb hl hw ih =>
    rw [List.isChain_cons] at hc
    have hsep : w.isOperator = true ∨ Apart text := by
      by_cases ho : w.isOperator = true
      · exact Or.inl ho
      · by_cases hd : w = .keyword .declare
        · obtain ⟨c, hc, hblank⟩ := hw hd
          refine Or.inr ?_
          intro d hd
          rw [Option.mem_unique hd hc]
          exact isAlphanum_of_blank hblank
        · refine Or.inr (apart_of_layout hl ?_)
          intro w' hw'
          rcases hc.1 w' hw' with h | h | h
          · exact absurd h ho
          · exact h
          · exact absurd h hd
    have hdrop : (blanks ++ (w.chars ++ text)).dropWhile isBlank = w.chars ++ text :=
      dropWhile_append_run hb (isBlank_chars w text)
    rw [itemsOf_of_scan? (by rw [hdrop]; exact scan?_spelling hsep), ih hc.2, List.map_cons]

/-! ## Everything can be laid out -/

def spaced (ws : List Spelling) : List Char := ws.flatMap (fun w => ' ' :: w.chars) ++ [' ']

theorem head?_spaced (ws : List Spelling) : (spaced ws).head? = some ' ' := by
  cases ws <;> rfl

theorem layout_spaced (ws : List Spelling) : Layout ws (spaced ws) := by
  induction ws with
  | nil => exact .nil (by simp [spaced, isBlank])
  | cons w ws ih =>
    have hs : spaced (w :: ws) = [' '] ++ (w.chars ++ spaced ws) := by simp [spaced]
    rw [hs]
    refine .cons (by simp [isBlank]) ih ?_
    intro _
    exact ⟨' ', head?_spaced ws, rfl⟩

end DeskCalculator
