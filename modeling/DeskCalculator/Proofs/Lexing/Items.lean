import DeskCalculator.Lexeme
import DeskCalculator.Proofs.Lexing.Literal

/-!
# The items of a text

`itemsOf` is the list of items of a text, wherever the text stands. No item reaches over a newline
(`Item.scan?_append_newline`); and but for signs no operator stands inside an item, so the next one
can be found by its character (`dropWhile_itemsOf`).
-/

namespace DeskCalculator

def itemsOf (text : List Char) : List Item := (Cursor.atStart text).items.map Located.item

namespace Cursor

theorem next?_eq (c : Cursor) : c.next? = (Item.scan? (c.rest.dropWhile isBlank)).map fun p =>
    ⟨p.1, c.skipBlanks.offset, ⟨c.skipBlanks.offset + Text.utf8Length p.2.1, p.2.2⟩⟩ := by
  unfold next? skipBlanks
  cases Item.scan? (c.rest.dropWhile isBlank) <;> rfl

theorem items_eq (c : Cursor) : c.items = match c.next? with
    | none => []
    | some located => located :: located.after.items := by
  rw [items]
  split <;> rename_i h <;> rw [h]

theorem map_item_items (c : Cursor) : c.items.map Located.item = itemsOf c.rest := by
  have : ∀ c' : Cursor, c.rest = c'.rest → c.items.map Located.item = c'.items.map Located.item := by
    fun_induction items c with
    | case1 c h =>
      intro c' hr
      rw [next?_eq, Option.map_eq_none_iff] at h
      rw [items_eq c', next?_eq, ← hr, h]
      rfl
    | case2 c located h ih =>
      intro c' hr
      rw [next?_eq, Option.map_eq_some_iff] at h
      obtain ⟨p, hp, rfl⟩ := h
      rw [items_eq c', next?_eq, ← hr, hp]
      simp only [Option.map_some, List.map_cons, List.cons.injEq, true_and]
      exact ih _ rfl
  exact this _ rfl

end Cursor

/-! ## What a text begins with -/

theorem isAlpha_iff {c : Char} :
    c.isAlpha = true ↔ (65 ≤ c.toNat ∧ c.toNat ≤ 90) ∨ (97 ≤ c.toNat ∧ c.toNat ≤ 122) := by
  show (decide (c.val ≥ 65 ∧ c.val ≤ 90) || (decide (c.val ≥ 97) && decide (c.val ≤ 122))) = true ↔ _
  simp [UInt32.le_iff_toNat_le]

theorem isDigit_iff {c : Char} : c.isDigit = true ↔ 48 ≤ c.toNat ∧ c.toNat ≤ 57 := by
  simp [Char.isDigit, UInt32.le_iff_toNat_le]

theorem isDigit_of_isAlpha {c : Char} (h : c.isAlpha = true) : c.isDigit = false := by
  rw [Bool.eq_false_iff, Ne, isDigit_iff]
  rw [isAlpha_iff] at h
  omega

theorem NumberLiteral.scan?_of_isAlpha {c : Char} (hc : c.isAlpha = true) (cs : List Char) : scan? (c :: cs) = none := by
  have hdot : c ≠ '.' := by
    rintro rfl
    cases hc
  simp [scan?, isDigit_of_isAlpha hc, hdot]

theorem NumberLiteral.isAlpha_of_scan? {cs rest : List Char} {l : NumberLiteral} (h : scan? cs = some (l, rest)) :
    ∀ c ∈ cs.head?, c.isAlpha = false := by
  intro c hc
  obtain ⟨tail, rfl⟩ := List.head?_eq_some_iff.mp hc
  rw [Bool.eq_false_iff]
  intro ha
  rw [scan?_of_isAlpha ha] at h
  cases h

namespace Item

/-- The item of a character that starts no literal and no word. -/
def ofChar (c : Char) : Item :=
  match Operator.ofSymbol? c with
  | some op => .lexeme (.operator op)
  | none => .stray c

/-- A text begins with a literal, with a word, or with a character that starts neither. -/
inductive Begins : List Char → Item → List Char → List Char → Prop where
  | literal {l cs rest} (h : NumberLiteral.scan? cs = some (l, rest)) :
      Begins cs (.lexeme (.number l.value)) l.text rest
  | word {c others rest} (hc : c.isAlpha = true) (ho : ∀ d ∈ others, d.isAlphanum = true)
      (hr : ∀ d ∈ rest.head?, d.isAlphanum = false) :
      Begins (c :: (others ++ rest)) (.lexeme (.word (String.ofList (c :: others)))) (c :: others) rest
  | char {c rest} (hl : NumberLiteral.scan? (c :: rest) = none) (hc : c.isAlpha = false) :
      Begins (c :: rest) (ofChar c) [c] rest

variable {cs spelling rest : List Char} {item : Item}

theorem begins_of_scan? (h : scan? cs = some (item, spelling, rest)) : Begins cs item spelling rest := by
  cases cs with
  | nil => cases h
  | cons c cs =>
    unfold scan? at h
    simp only at h
    split at h
    · next hl =>
      cases h
      exact .literal hl
    · next hl =>
      split at h
      · next hc =>
        cases h
        have hw := @Begins.word _ (cs.takeWhile Char.isAlphanum) (cs.dropWhile Char.isAlphanum) hc
          (fun d hd => List.mem_takeWhile_imp hd) (fun d hd => of_mem_head?_dropWhile hd)
        rwa [List.takeWhile_append_dropWhile] at hw
      · next hc =>
        have hitem := Begins.char hl (Bool.eq_false_iff.mpr hc)
        unfold ofChar at hitem
        split at h <;> next ho =>
          cases h
          rwa [ho] at hitem

theorem scan?_eq_some_iff : scan? cs = some (item, spelling, rest) ↔ Begins cs item spelling rest := by
  refine ⟨begins_of_scan?, fun h => ?_⟩
  cases h with
  | literal h =>
    cases cs with
    | nil => cases h
    | cons c cs =>
      unfold scan?
      simp only [h]
  | word hc ho hr =>
    unfold scan?
    simp only [NumberLiteral.scan?_of_isAlpha hc, hc, if_true, takeWhile_append_run ho hr, dropWhile_append_run ho hr]
  | @char c _ hl hc =>
    unfold scan? ofChar
    simp only [hl, hc]
    cases Operator.ofSymbol? c <;> rfl

theorem scan?_eq_none (h : scan? cs = none) : cs = [] := by
  cases cs with
  | nil => rfl
  | cons c cs =>
    unfold scan? at h
    simp only at h
    split at h
    · cases h
    · split at h
      · cases h
      · split at h <;> cases h

theorem length_lt_of_scan? (h : scan? cs = some (item, spelling, rest)) : rest.length < cs.length := by
  have happ := congrArg List.length (text_append_of_scan? h)
  have hne := List.length_pos_iff.2 (text_ne_nil_of_scan? h)
  rw [List.length_append] at happ
  omega

/-- A word is a letter with letters and digits behind it. -/
theorem word_of_scan? {word : String} (h : scan? cs = some (.lexeme (.word word), spelling, rest)) :
    ∃ c others, word = String.ofList (c :: others) ∧ c.isAlpha = true ∧ ∀ d ∈ others, d.isAlphanum = true := by
  generalize hi : Item.lexeme (.word word) = item at h
  cases begins_of_scan? h with
  | literal => cases hi
  | word hc ho =>
    cases hi
    exact ⟨_, _, rfl, hc, ho⟩
  | char =>
    unfold ofChar at hi
    split at hi <;> cases hi

theorem stray_of_scan? {c : Char} (h : scan? cs = some (.stray c, spelling, rest)) : cs = c :: rest := by
  generalize hi : Item.stray c = item at h
  cases begins_of_scan? h with
  | literal | word => cases hi
  | char =>
    unfold ofChar at hi
    split at hi <;> cases hi
    rfl

end Item

/-! ## One item after the other -/

theorem itemsOf_of_scan? {text spelling rest : List Char} {item : Item}
    (h : Item.scan? (text.dropWhile isBlank) = some (item, spelling, rest)) :
    itemsOf text = item :: itemsOf rest := by
  unfold itemsOf
  rw [Cursor.items_eq, Cursor.next?_eq]
  simp only [Cursor.atStart, h, Option.map_some, List.map_cons, Cursor.map_item_items]

theorem itemsOf_of_blank {text : List Char} (h : text.dropWhile isBlank = []) : itemsOf text = [] := by
  unfold itemsOf
  rw [Cursor.items_eq, Cursor.next?_eq]
  simp [Cursor.atStart, h, Item.scan?]

theorem itemsOf_nil : itemsOf [] = [] := itemsOf_of_blank rfl

theorem itemsOf_cases (text : List Char) : (text.dropWhile isBlank = [] ∧ itemsOf text = []) ∨
    ∃ item spelling rest, Item.scan? (text.dropWhile isBlank) = some (item, spelling, rest) ∧
      itemsOf text = item :: itemsOf rest ∧ rest.length < text.length := by
  cases h : Item.scan? (text.dropWhile isBlank) with
  | none =>
    have hb := Item.scan?_eq_none h
    exact Or.inl ⟨hb, itemsOf_of_blank hb⟩
  | some p =>
    obtain ⟨item, spelling, rest⟩ := p
    exact Or.inr ⟨item, spelling, rest, rfl, itemsOf_of_scan? h,
      Nat.lt_of_lt_of_le (Item.length_lt_of_scan? h) (Cursor.length_dropWhile_le isBlank text)⟩

theorem exists_scan?_of_mem {item : Item} {text : List Char} (h : item ∈ itemsOf text) :
    ∃ (before spelling rest : List Char), Item.scan? (before.dropWhile isBlank) = some (item, spelling, rest) := by
  induction hn : text.length using Nat.strongRecOn generalizing text with
  | ind n ih =>
    rcases itemsOf_cases text with ⟨-, hi⟩ | ⟨first, spelling, rest, hs, hi, hlt⟩
    · rw [hi] at h
      cases h
    · rw [hi] at h
      rcases List.mem_cons.mp h with rfl | h
      · exact ⟨_, _, _, hs⟩
      · exact ih rest.length (hn ▸ hlt) h rfl

theorem isBlank_of_stray {c : Char} {text : List Char} (h : .stray c ∈ itemsOf text) : isBlank c = false := by
  obtain ⟨before, spelling, rest, hs⟩ := exists_scan?_of_mem h
  have hhead := List.head?_dropWhile_not isBlank before
  rw [Item.stray_of_scan? hs] at hhead
  simpa using hhead

/-! ## Texts line by line -/

theorem newline_not_mem_word {c : Char} {others : List Char} (hc : c.isAlpha = true)
    (ho : ∀ d ∈ others, d.isAlphanum = true) : '\n' ∉ c :: others := by
  rw [List.mem_cons, not_or]
  refine ⟨?_, fun hm => by cases ho _ hm⟩
  rintro rfl
  cases hc

theorem Item.scan?_append_newline {cs : List Char} (hc : cs ≠ []) (rest : List Char) :
    scan? (cs ++ '\n' :: rest) = (scan? cs).map fun p => (p.1, p.2.1, p.2.2 ++ '\n' :: rest) := by
  have hn : Char.isAlphanum '\n' = false := rfl
  cases cs with
  | nil => exact absurd rfl hc
  | cons c cs =>
    have hl := NumberLiteral.scan?_append_newline (c :: cs) rest
    rw [List.cons_append] at hl ⊢
    unfold scan?
    simp only [hl]
    cases NumberLiteral.scan? (c :: cs) with
    | some p => rfl
    | none =>
      simp only [Option.map_none, takeWhile_append_stop hn, dropWhile_append_stop hn]
      by_cases ha : c.isAlpha = true
      · simp [ha]
      · cases Operator.ofSymbol? c <;> simp [ha]

/-! ## Looking for an operator by its character -/

def Item.isOperator (op : Operator) (i : Item) : Bool := i = .lexeme (.operator op)

theorem Operator.ofSymbol?_symbol (op : Operator) : ofSymbol? op.symbol = some op := by
  cases op <;> rfl

theorem Operator.symbol_of_ofSymbol? {c : Char} {op : Operator} (h : ofSymbol? c = some op) :
    op.symbol = c := by
  simpa using List.find?_some h

theorem Operator.isAlphanum_symbol (op : Operator) : op.symbol.isAlphanum = false := by
  cases op <;> rfl

theorem Operator.isBlank_symbol (op : Operator) : isBlank op.symbol = false := by
  cases op <;> rfl

theorem NumberLiteral.WellFormed.isAlphanum_or {l : NumberLiteral} (h : l.WellFormed) {c : Char}
    (hc : c ∈ l.text) : c.isAlphanum = true ∨ c = '.' ∨ c = '+' ∨ c = '-' := by
  have digit {c : Char} (hd : c.isDigit = true) : c.isAlphanum = true := by
    simp [Char.isAlphanum, hd]
  simp only [NumberLiteral.text, List.mem_append] at hc
  rcases hc with (hc | hc) | hc
  · exact Or.inl (digit (h.whole c hc))
  · cases hf : l.fraction with
    | none => simp [hf] at hc
    | some f =>
      simp only [hf, Option.map_some, Option.getD_some, List.mem_cons] at hc
      rcases hc with rfl | hc
      · exact Or.inr (Or.inl rfl)
      · exact Or.inl (digit (h.fraction f hf c hc))
  · cases he : l.exponent with
    | none => simp [he] at hc
    | some e =>
      have hw := h.exponent e he
      simp only [he, Option.map_some, Option.getD_some, ExponentPart.text, List.mem_cons,
        List.mem_append, Option.mem_toList] at hc
      rcases hc with rfl | hc | hc
      · rcases hw.mark with hm | hm <;> rw [hm] <;> exact Or.inl rfl
      · exact Or.inr (Or.inr (hw.sign c hc))
      · exact Or.inl (digit (hw.digits c hc))

theorem isAlphanum_of_blank {c : Char} (h : isBlank c = true) : c.isAlphanum = false ∧ c ≠ '.' := by
  simp only [isBlank, Bool.or_eq_true, decide_eq_true_eq] at h
  rcases h with ((((rfl | rfl) | rfl) | rfl) | rfl) | rfl <;> decide

theorem isBlank_of_isAlphanum {c : Char} (h : c.isAlphanum = true) : isBlank c = false := by
  rw [Bool.eq_false_iff]
  intro hb
  rw [(isAlphanum_of_blank hb).1] at h
  cases h

theorem isBlank_of_mem_literal {l : NumberLiteral} (h : l.WellFormed) {c : Char} (hc : c ∈ l.text) : isBlank c = false := by
  rcases h.isAlphanum_or hc with h | rfl | rfl | rfl
  · exact isBlank_of_isAlphanum h
  all_goals rfl

theorem Item.ofChar_eq_operator {c : Char} {op : Operator} : ofChar c = .lexeme (.operator op) ↔ c = op.symbol := by
  unfold ofChar
  constructor
  · intro h
    split at h
    · next ho =>
      cases h
      exact (Operator.symbol_of_ofSymbol? ho).symm
    · cases h
  · rintro rfl
    rw [Operator.ofSymbol?_symbol]

theorem Item.spelling_of_operator {op : Operator} {cs spelling rest : List Char}
    (h : scan? cs = some (.lexeme (.operator op), spelling, rest)) : spelling = [op.symbol] := by
  generalize hi : Item.lexeme (.operator op) = item at h
  cases begins_of_scan? h with
  | literal | word => cases hi
  | char => rw [ofChar_eq_operator.mp hi.symm]

section
variable {op : Operator} (hp : op ≠ .plus) (hm : op ≠ .minus)
include hp hm

/-- Only the operator itself is spelled with its character, unless it is a sign. -/
theorem Item.symbol_not_mem {cs spelling rest : List Char} {item : Item}
    (h : scan? cs = some (item, spelling, rest)) (hi : item ≠ .lexeme (.operator op)) :
    op.symbol ∉ spelling := by
  intro hmem
  have ha := op.isAlphanum_symbol
  cases begins_of_scan? h with
  | literal hl =>
    rcases (NumberLiteral.wellFormed_of_scan? hl).isAlphanum_or hmem with hc | hc | hc | hc
    · rw [ha] at hc
      cases hc
    all_goals cases op <;> first | exact hp rfl | exact hm rfl | cases hc
  | word hc ho =>
    rcases List.mem_cons.mp hmem with he | hmem
    · rw [he] at ha
      simp [Char.isAlphanum, hc] at ha
    · rw [ho _ hmem] at ha
      cases ha
  | char => exact hi (ofChar_eq_operator.mpr (List.mem_singleton.mp hmem).symm)

/-- Looking for an operator by its character finds the first item that is the operator. -/
theorem dropWhile_itemsOf (text : List Char) :
    (itemsOf text).dropWhile (fun i => !i.isOperator op) =
      match text.dropWhile (· ≠ op.symbol) with
      | [] => []
      | _ :: rest => .lexeme (.operator op) :: itemsOf rest := by
  induction hn : text.length using Nat.strongRecOn generalizing text with
  | ind n ih =>
    have hblank : ∀ c ∈ text.takeWhile isBlank, c ≠ op.symbol := by
      intro c hc he
      have := List.mem_takeWhile_imp hc
      rw [he, Operator.isBlank_symbol] at this
      cases this
    have hskip : text.dropWhile (· ≠ op.symbol) = (text.dropWhile isBlank).dropWhile (· ≠ op.symbol) := by
      conv => lhs; rw [← List.takeWhile_append_dropWhile (p := isBlank) (l := text)]
      exact List.dropWhile_append_of_pos fun c hc => decide_eq_true (hblank c hc)
    rcases itemsOf_cases text with ⟨hb, hi⟩ | ⟨item, spelling, rest, hs, hi, hlt⟩
    · rw [hi, hskip, hb]
      rfl
    · rw [hskip, hi, ← Item.text_append_of_scan? hs]
      by_cases ho : item = .lexeme (.operator op)
      · subst ho
        rw [Item.spelling_of_operator hs]
        simp [Item.isOperator]
      · have hnot := Item.symbol_not_mem hp hm hs ho
        have hne : ∀ c ∈ spelling, c ≠ op.symbol := fun c hc he => hnot (he ▸ hc)
        rw [List.dropWhile_append_of_pos fun c hc => decide_eq_true (hne c hc)]
        rw [← ih rest.length (by omega) rest rfl]
        simp [Item.isOperator, ho]

end

end DeskCalculator
