import DeskCalculator.Proofs.Stream.Actions
import DeskCalculator.Proofs.Lexing.Items

/-!
# What a stream has still to deliver

`pieces` forgets lines and places: the token that was put back, then the items of the text. `next`
takes the first piece, and skipping to an operator drops the pieces up to it, although it looks for
a character and not for a lexeme.
-/

namespace DeskCalculator

namespace LineReader

def items (r : LineReader) : List Item := itemsOf r.cursor.rest ++ r.upcoming.flatMap itemsOf

theorem exists_itemsOf_of_mem {r : LineReader} {item : Item} (h : item ∈ r.items) : ∃ text, item ∈ itemsOf text := by
  rcases List.mem_append.mp h with h | h
  · exact ⟨_, h⟩
  · obtain ⟨text, -, h⟩ := List.mem_flatMap.mp h
    exact ⟨text, h⟩

theorem next?_cases (c : Cursor) : (c.next? = none ∧ itemsOf c.rest = []) ∨
    ∃ located, c.next? = some located ∧ itemsOf c.rest = located.item :: itemsOf located.after.rest := by
  have h := c.map_item_items
  rw [Cursor.items_eq] at h
  cases hn : c.next? with
  | none => rw [hn] at h; exact Or.inl ⟨rfl, h.symm⟩
  | some located =>
    simp only [hn, List.map_cons, Cursor.map_item_items] at h
    exact Or.inr ⟨located, rfl, h.symm⟩

theorem itemFrom_spec (cursor : Cursor) (line : Nat) (upcoming : List (List Char)) :
    (itemFrom cursor line upcoming).1 = (mk cursor line upcoming).items.head? ∧
      (itemFrom cursor line upcoming).2.items = (mk cursor line upcoming).items.tail := by
  induction upcoming generalizing cursor line with
  | nil =>
    rw [itemFrom.eq_def]
    rcases next?_cases cursor with ⟨hn, hi⟩ | ⟨located, hn, hi⟩
    · simp [hn, items, hi, Cursor.atStart, itemsOf_nil]
    · simp [hn, items, hi]
  | cons text upcoming ih =>
    rw [itemFrom.eq_def]
    rcases next?_cases cursor with ⟨hn, hi⟩ | ⟨located, hn, hi⟩
    · simpa [hn, items, hi, Cursor.atStart] using ih (.atStart text) (line + 1)
    · simp [hn, items, hi]

theorem takeItem_fst (r : LineReader) : r.takeItem.1 = r.items.head? := (itemFrom_spec ..).1

theorem items_takeItem (r : LineReader) : r.takeItem.2.items = r.items.tail := (itemFrom_spec ..).2

section
variable {op : Operator} (hp : op ≠ .plus) (hm : op ≠ .minus)
include hp hm

theorem skipPast?_cases (c : Cursor) :
    (c.skipPast? op.symbol = none ∧ (itemsOf c.rest).dropWhile (fun i => !i.isOperator op) = []) ∨
    ∃ c', c.skipPast? op.symbol = some c' ∧ (itemsOf c.rest).dropWhile (fun i => !i.isOperator op) =
      .lexeme (.operator op) :: itemsOf c'.rest := by
  rw [dropWhile_itemsOf hp hm]
  unfold Cursor.skipPast?
  cases c.rest.dropWhile (· ≠ op.symbol) with
  | nil => exact Or.inl ⟨rfl, rfl⟩
  | cons found rest => exact Or.inr ⟨_, rfl, rfl⟩

theorem skipFrom_spec (cursor : Cursor) (line : Nat) (upcoming : List (List Char)) :
    (skipFrom op.symbol cursor line upcoming).2.items =
      ((mk cursor line upcoming).items.dropWhile (fun i => !i.isOperator op)).tail := by
  induction upcoming generalizing cursor line with
  | nil =>
    rw [skipFrom.eq_def]
    rcases skipPast?_cases hp hm cursor with ⟨hs, hi⟩ | ⟨c', hs, hi⟩
    · simp [hs, items, hi, Cursor.atStart, itemsOf_nil]
    · simp [hs, items, hi]
  | cons text upcoming ih =>
    rw [skipFrom.eq_def]
    rcases skipPast?_cases hp hm cursor with ⟨hs, hi⟩ | ⟨c', hs, hi⟩
    · simpa [hs, items, List.dropWhile_append, hi, Cursor.atStart] using ih (.atStart text) (line + 1)
    · simp [hs, items, List.dropWhile_append, hi]

theorem items_skipPast (r : LineReader) : (r.skipPast op.symbol).2.items =
    (r.items.dropWhile (fun i => !i.isOperator op)).tail := skipFrom_spec hp hm ..

end

end LineReader

/-! ## Keywords and pieces -/

theorem Keyword.ofWord?_word (k : Keyword) : ofWord? k.word = some k := by
  cases k <;> rfl

theorem Keyword.ofWord?_eq_none_iff {word : String} : ofWord? word = none ↔ ∀ k : Keyword, k.word ≠ word := by
  constructor
  · rintro h k rfl
    rw [ofWord?_word] at h
    cases h
  · intro h
    unfold ofWord?
    rw [List.find?_eq_none]
    intro k _
    simpa using h k

theorem Keyword.word_of_ofWord? {word : String} {k : Keyword} (h : ofWord? word = some k) : k.word = word := by
  simpa using List.find?_some h

/-- What a stream delivers: a token that was put back, or an item of the text. -/
inductive Piece where
  | held (token : Token)
  | item (item : Item)
  deriving DecidableEq

namespace Piece

/-- The token that a piece is delivered as; a stray character is none. -/
def token? (symbols : SymbolTable) : Piece → Option Token
  | .held token => some token
  | .item (.lexeme lexeme) => some (.ofLexeme symbols lexeme)
  | .item (.stray _) => none

def isOperator (op : Operator) (p : Piece) : Bool :=
  p = .held (.operator op) || p = .item (.lexeme (.operator op))

/-- What follows the first occurrence of an operator; nothing if there is none. -/
def after (op : Operator) (pieces : List Piece) : List Piece :=
  (pieces.dropWhile fun p => !p.isOperator op).tail

theorem isOperator_iff {op : Operator} {p : Piece} :
    p.isOperator op = true ↔ p = .held (.operator op) ∨ p = .item (.lexeme (.operator op)) := by
  simp [isOperator]

theorem ofLexeme_eq_operator {symbols : SymbolTable} {l : Lexeme} {op : Operator} :
    Token.ofLexeme symbols l = .operator op ↔ l = .operator op := by
  cases l with
  | number value => simp [Token.ofLexeme]
  | operator op' => simp [Token.ofLexeme]
  | word word =>
    simp only [Token.ofLexeme, reduceCtorEq, iff_false]
    cases Keyword.ofWord? word with
    | some k => simp
    | none => cases symbols.find? word <;> simp

theorem ofLexeme_eq_identifier {symbols : SymbolTable} {l : Lexeme} {name : String} : Token.ofLexeme symbols l = .identifier name ↔
    l = .word name ∧ Keyword.ofWord? name = none ∧ symbols.find? name = none := by
  cases l with
  | number value => simp [Token.ofLexeme]
  | operator op => simp [Token.ofLexeme]
  | word word =>
    simp only [Token.ofLexeme, Lexeme.word.injEq]
    cases hk : Keyword.ofWord? word with
    | some k =>
      simp only [reduceCtorEq, false_iff]
      rintro ⟨rfl, hn, -⟩
      rw [hk] at hn
      cases hn
    | none =>
      cases hf : symbols.find? word with
      | some v =>
        simp only [reduceCtorEq, false_iff]
        rintro ⟨rfl, -, hn⟩
        rw [hf] at hn
        cases hn
      | none =>
        constructor
        · rintro ⟨⟩
          exact ⟨rfl, hk, hf⟩
        · rintro ⟨rfl, -⟩
          rfl

theorem isOperator_iff_token? {symbols : SymbolTable} {op : Operator} {p : Piece} :
    p.isOperator op = true ↔ p.token? symbols = some (.operator op) := by
  rw [isOperator_iff]
  cases p with
  | held token => simp [token?]
  | item i => cases i <;> simp [token?, ofLexeme_eq_operator]

theorem after_cons_of_isOperator {op : Operator} {p : Piece} (h : p.isOperator op = true)
    (ps : List Piece) : after op (p :: ps) = ps := by
  simp [after, h]

theorem after_cons {op : Operator} {p : Piece} (h : p.isOperator op = false) (ps : List Piece) :
    after op (p :: ps) = after op ps := by
  simp [after, h]

theorem isOperator_item (op : Operator) (i : Item) : (Piece.item i).isOperator op = i.isOperator op := by
  simp [isOperator, Item.isOperator]

theorem after_map_item (op : Operator) (items : List Item) : after op (items.map .item) =
    ((items.dropWhile fun i => !i.isOperator op).tail).map .item := by
  simp only [after, List.dropWhile_map, List.map_tail, Function.comp_def, isOperator_item]

end Piece

namespace TokenStream

def pieces (s : TokenStream) : List Piece := s.pushedBack.toList.map .held ++ s.reader.items.map .item

theorem pieces_of_none {s : TokenStream} (h : s.pushedBack = none) :
    s.pieces = s.reader.items.map .item := by simp [pieces, h]

theorem pieces_holding {s : TokenStream} (h : s.pushedBack = none) (token : Token) :
    (s.holding token).pieces = .held token :: s.pieces := by simp [pieces, holding, h]

theorem item_mem_pieces {s : TokenStream} {item : Item} : .item item ∈ s.pieces ↔ item ∈ s.reader.items := by
  cases h : s.pushedBack <;> simp [pieces, h]

theorem head?_pieces_eq_held {s : TokenStream} {token : Token} :
    s.pieces.head? = some (.held token) ↔ s.pushedBack = some token := by
  cases hs : s.pushedBack <;> simp [pieces, hs]

theorem pushedBack_eq_of_pieces {s t : TokenStream} (h : s.pieces = t.pieces) :
    t.pushedBack = s.pushedBack := by
  refine Option.ext fun token => ?_
  rw [← head?_pieces_eq_held, ← head?_pieces_eq_held, h]

variable (symbols : SymbolTable)

theorem pieces_next (s : TokenStream) : (next symbols s).2.pieces = s.pieces.tail := by
  unfold next
  split
  · next token h => simp [pieces, h]
  · next h =>
    have hi : (s.reader.items.map Piece.item).tail = s.reader.takeItem.2.items.map .item := by
      rw [LineReader.items_takeItem, List.map_tail]
    rw [pieces_of_none h, hi]
    simp only
    split <;> exact pieces_of_none h

theorem next_fst (s : TokenStream) : (next symbols s).1 = match s.pieces.head? with
    | some (.held token) => .ok token
    | some (.item (.lexeme lexeme)) => .ok (.ofLexeme symbols lexeme)
    | some (.item (.stray c)) => .error (.statement (.badToken c.toString) (next symbols s).2.line)
    | none => s.atEnd .endOfInput := by
  cases h : s.pushedBack with
  | some token => simp [next, h, pieces]
  | none =>
    rw [pieces_of_none h, List.head?_map, ← LineReader.takeItem_fst]
    unfold next
    simp only [h]
    split <;> rename_i hi <;> rw [hi] <;> rfl

variable {symbols}

theorem of_next_ok {s s' : TokenStream} {token : Token} (h : next symbols s = (.ok token, s')) :
    (∃ p, s.pieces = p :: s'.pieces ∧ p.token? symbols = some token) ∨
      (s.pieces = [] ∧ s'.pieces = [] ∧ token = .endOfInput ∧ s.failure = none) := by
  have hp := pieces_next symbols s
  have ha := next_fst symbols s
  rw [h] at hp ha
  simp only at hp ha
  cases hs : s.pieces with
  | nil =>
    rw [hs] at hp ha
    have hf := of_atEnd_eq_ok ha.symm
    rw [List.head?_nil, atEnd_of_none hf] at ha
    cases ha
    exact Or.inr ⟨rfl, hp, rfl, hf⟩
  | cons p ps =>
    rw [hs] at hp ha
    refine Or.inl ⟨p, by rw [hp]; rfl, ?_⟩
    cases p with
    | held t => cases ha; rfl
    | item i =>
      cases i with
      | lexeme l => cases ha; rfl
      | stray c => cases ha

theorem ofLexeme_of_next {s s' : TokenStream} {token : Token} (hp : s.pushedBack = none)
    (h : next symbols s = (.ok token, s')) (he : token ≠ .endOfInput) :
    ∃ l, .lexeme l ∈ s.reader.items ∧ Token.ofLexeme symbols l = token := by
  obtain ⟨p, hs, ht⟩ | ⟨-, -, hend, -⟩ := of_next_ok h
  · have hm : p ∈ s.pieces := hs ▸ List.mem_cons_self
    rw [pieces_of_none hp] at hm
    obtain ⟨item, hi, rfl⟩ := List.mem_map.mp hm
    cases item with
    | stray c => cases ht
    | lexeme l => exact ⟨l, hi, Option.some.inj ht⟩
  · exact absurd hend he

theorem of_next_error {s s' : TokenStream} {e : Error} (h : next symbols s = (.error e, s')) :
    (∃ c, s.pieces = .item (.stray c) :: s'.pieces ∧
        e = .statement (.badToken c.toString) s'.line) ∨
      (s.pieces = [] ∧ s'.pieces = [] ∧ ∃ reason, s.failure = some reason ∧ e = .io reason) := by
  have hp := pieces_next symbols s
  have ha := next_fst symbols s
  rw [h] at hp ha
  simp only at hp ha
  cases hs : s.pieces with
  | nil =>
    rw [hs] at hp ha
    exact Or.inr ⟨rfl, hp, of_atEnd_eq_error ha.symm⟩
  | cons p ps =>
    rw [hs] at hp ha
    cases p with
    | held t => cases ha
    | item i =>
      cases i with
      | lexeme l => cases ha
      | stray c => cases ha; exact Or.inl ⟨c, by rw [hp]; rfl, rfl⟩

theorem next_of_pieces {s : TokenStream} {p : Piece} {ps : List Piece} {token : Token}
    (hs : s.pieces = p :: ps) (ht : p.token? symbols = some token) :
    ∃ s', next symbols s = (.ok token, s') ∧ s'.pieces = ps ∧ s'.pushedBack = none ∧
      s'.failure = s.failure := by
  have ha := next_fst symbols s
  refine ⟨(next symbols s).2, Prod.ext ?_ rfl, ?_, pushedBack_next symbols s, failure_next symbols s⟩
  · rw [ha, hs]
    cases p with
    | held t => cases ht; rfl
    | item i =>
      cases i with
      | lexeme l => cases ht; rfl
      | stray c => cases ht
  · rw [pieces_next, hs]
    rfl

theorem next_of_pieces_nil (symbols : SymbolTable) {s : TokenStream} (hs : s.pieces = []) (hf : s.failure = none) :
    ∃ s', next symbols s = (.ok .endOfInput, s') ∧ s'.pieces = [] ∧ s'.pushedBack = none ∧
      s'.failure = none := by
  have ha := next_fst symbols s
  refine ⟨(next symbols s).2, Prod.ext ?_ rfl, ?_, pushedBack_next symbols s, ?_⟩
  · rw [ha, hs]
    exact atEnd_of_none hf _
  · rw [pieces_next, hs]
    rfl
  · rw [failure_next, hf]

/-! ## Skipping -/

theorem pieces_skipPast {op : Operator} (hp : op ≠ .plus) (hm : op ≠ .minus) (s : TokenStream) :
    (skipPast op s).2.pieces = Piece.after op s.pieces := by
  have hi := LineReader.items_skipPast hp hm s.reader
  rw [snd_skipPast, pieces_of_none rfl]
  simp only
  split
  · next h =>
    simp [pieces, h, Piece.after_cons_of_isOperator (show (Piece.held (.operator op)).isOperator op = true by
      simp [Piece.isOperator])]
  · next h =>
    have hs : Piece.after op s.pieces = Piece.after op (s.reader.items.map .item) := by
      cases hb : s.pushedBack with
      | none => rw [pieces_of_none hb]
      | some token =>
        have hn : (Piece.held token).isOperator op = false := by
          rw [hb] at h
          simpa [Piece.isOperator] using h
        simp [pieces, hb, Piece.after_cons hn]
    rw [hs, Piece.after_map_item, ← hi]

end TokenStream

end DeskCalculator
