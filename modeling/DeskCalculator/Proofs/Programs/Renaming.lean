import Mathlib.Logic.Equiv.Basic
import DeskCalculator.Proofs.Programs.Spelling

/-!
# Texts with other names

A renaming takes words to words, each to one of its own, and leaves alone the words that mean something. In a text
it puts the image of each word between two blanks; the items of the new text are those of the old one, renamed
and on the same lines.
-/

namespace DeskCalculator

/-- A letter with letters and digits behind it. -/
def isWord (w : String) : Bool :=
  match w.toList with
  | [] => false
  | c :: others => c.isAlpha && others.all Char.isAlphanum

abbrev Word := { w : String // isWord w = true }

/-- The words that the program knows: keywords, what asks to quit, and the constants. -/
def reservedWords : List String := ["let", "exit", "pow", "sqrt", "x", "pi", "e"]

structure Renaming where
  image : Word → Word
  injective : Function.Injective image
  reserved : ∀ w : Word, w.1 ∈ reservedWords → image w = w

def Lexeme.rename (names : String → String) : Lexeme → Lexeme
  | .word w => .word (names w)
  | l => l

def Item.rename (names : String → String) : Item → Item
  | .lexeme l => .lexeme (l.rename names)
  | .stray c => .stray c

namespace Renaming

variable (ρ : Renaming)

/-- The new name of a word; what is no word has no other. -/
def apply (name : String) : String := if h : isWord name = true then (ρ.image ⟨name, h⟩).1 else name

/-- What an item is written as in the new text. -/
def spell : Item → List Char → List Char
  | .lexeme (.word w), _ => ' ' :: ((ρ.apply w).toList ++ [' '])
  | _, spelling => spelling

/-- The text with every word in it replaced. -/
def respell (text : List Char) : List Char :=
  match _h : Item.scan? text with
  | none => []
  | some (item, spelling, rest) => ρ.spell item spelling ++ respell rest
termination_by text.length
decreasing_by exact Item.length_lt_of_scan? _h

/-! ## Names -/

theorem isWord_apply {name : String} : isWord (ρ.apply name) = isWord name := by
  unfold apply
  split
  · next h => rw [h, (ρ.image ⟨name, h⟩).2]
  · rfl

theorem apply_injective : Function.Injective ρ.apply := by
  intro a b h
  have hw : isWord a = isWord b := by rw [← ρ.isWord_apply, h, ρ.isWord_apply]
  unfold apply at h
  by_cases ha : isWord a = true
  · have hb := hw ▸ ha
    rw [dif_pos ha, dif_pos hb] at h
    exact congrArg Subtype.val (ρ.injective (Subtype.ext h))
  · have hb := hw ▸ ha
    rwa [dif_neg ha, dif_neg hb] at h

theorem apply_of_reserved {name : String} (h : name ∈ reservedWords) : ρ.apply name = name := by
  unfold apply
  split
  · next hw => rw [ρ.reserved ⟨name, hw⟩ h]
  · rfl

theorem apply_eq_iff {name word : String} (h : word ∈ reservedWords) : ρ.apply name = word ↔ name = word := by
  constructor
  · intro he
    exact ρ.apply_injective (he.trans (ρ.apply_of_reserved h).symm)
  · rintro rfl
    exact ρ.apply_of_reserved h

/-- Two words take each other's place. -/
def swap (a b : Word) (ha : a.1 ∉ reservedWords) (hb : b.1 ∉ reservedWords) : Renaming where
  image := Equiv.swap a b
  injective := (Equiv.swap a b).injective
  reserved w hw := by
    refine Equiv.swap_apply_of_ne_of_ne ?_ ?_
    · rintro rfl
      exact ha hw
    · rintro rfl
      exact hb hw

example : (swap ⟨"a", rfl⟩ ⟨"a1", rfl⟩ (by decide) (by decide)).respell "let a=1e+a1=".toList =
    " let   a1 =1 e + a =".toList := by
  decide +kernel

end Renaming

/-! ## One item after the other -/

theorem exists_chars_of_isWord {w : String} (h : isWord w = true) :
    ∃ c others, w = String.ofList (c :: others) ∧ c.isAlpha = true ∧ ∀ d ∈ others, d.isAlphanum = true := by
  unfold isWord at h
  split at h
  · cases h
  · next c others hw =>
    rw [Bool.and_eq_true, List.all_eq_true] at h
    exact ⟨c, others, by rw [← hw, String.ofList_toList], h.1, h.2⟩

theorem isWord_ofList {c : Char} {others : List Char} (hc : c.isAlpha = true) (ho : ∀ d ∈ others, d.isAlphanum = true) :
    isWord (String.ofList (c :: others)) = true := by
  unfold isWord
  rw [String.toList_ofList, Bool.and_eq_true, List.all_eq_true]
  exact ⟨hc, ho⟩

theorem newline_not_mem_of_isWord {w : String} (h : isWord w = true) : '\n' ∉ w.toList := by
  obtain ⟨c, others, rfl, hc, ho⟩ := exists_chars_of_isWord h
  rw [String.toList_ofList]
  exact newline_not_mem_word hc ho

@[elab_as_elim]
theorem text_induction {motive : List Char → Prop} (nil : motive [])
    (literal : ∀ l cs rest, NumberLiteral.scan? cs = some (l, rest) → motive rest → motive cs)
    (word : ∀ c others rest, c.isAlpha = true → (∀ d ∈ others, d.isAlphanum = true) →
      (∀ d ∈ rest.head?, d.isAlphanum = false) → motive rest → motive (c :: (others ++ rest)))
    (char : ∀ c cs, NumberLiteral.scan? (c :: cs) = none → c.isAlpha = false → motive cs → motive (c :: cs))
    (text : List Char) : motive text := by
  induction hn : text.length using Nat.strongRecOn generalizing text with
  | ind n ih =>
    cases hs : Item.scan? text with
    | none =>
      rw [Item.scan?_eq_none hs]
      exact nil
    | some p =>
      obtain ⟨item, spelling, rest⟩ := p
      have hrest := ih rest.length (hn ▸ Item.length_lt_of_scan? hs) rest rfl
      cases Item.begins_of_scan? hs with
      | literal hl => exact literal _ _ _ hl hrest
      | word hc ho hr => exact word _ _ _ hc ho hr hrest
      | char hl hc => exact char _ _ hl hc hrest

theorem Item.rename_ofChar (names : String → String) (c : Char) : (ofChar c).rename names = ofChar c := by
  unfold ofChar
  cases Operator.ofSymbol? c <;> rfl

theorem isBlank_of_isAlpha {c : Char} (h : c.isAlpha = true) : isBlank c = false :=
  isBlank_of_isAlphanum (by simp [Char.isAlphanum, h])

theorem itemsOf_of_begins {cs spelling rest : List Char} {item : Item} (hb : ∀ c ∈ cs.head?, isBlank c = false)
    (h : Item.Begins cs item spelling rest) : itemsOf cs = item :: itemsOf rest := by
  have hs := Item.scan?_eq_some_iff.mpr h
  rw [← dropWhile_of_head hb] at hs
  exact itemsOf_of_scan? hs

theorem itemsOf_cons_blank {c : Char} (hb : isBlank c = true) (cs : List Char) : itemsOf (c :: cs) = itemsOf cs := by
  have hdrop : (c :: cs).dropWhile isBlank = cs.dropWhile isBlank := List.dropWhile_cons_of_pos hb
  rcases itemsOf_cases cs with ⟨hd, hi⟩ | ⟨item, spelling, rest, hs, hi, -⟩
  · rw [hi, itemsOf_of_blank (hdrop.trans hd)]
  · rw [hi, itemsOf_of_scan? (by rw [hdrop]; exact hs)]

namespace Renaming

variable (ρ : Renaming)

theorem respell_of_scan? {cs spelling rest : List Char} {item : Item} (h : Item.scan? cs = some (item, spelling, rest)) :
    ρ.respell cs = ρ.spell item spelling ++ ρ.respell rest := by
  rw [respell]
  split
  · next hn =>
    rw [h] at hn
    cases hn
  · next hs =>
    rw [h] at hs
    cases hs
    rfl

@[simp] theorem respell_nil : ρ.respell [] = [] := by
  rw [respell]
  rfl

theorem respell_literal {cs rest : List Char} {l : NumberLiteral} (h : NumberLiteral.scan? cs = some (l, rest)) :
    ρ.respell cs = l.text ++ ρ.respell rest := ρ.respell_of_scan? (Item.scan?_eq_some_iff.mpr (.literal h))

theorem respell_word {c : Char} {others rest : List Char} (hc : c.isAlpha = true)
    (ho : ∀ d ∈ others, d.isAlphanum = true) (hr : ∀ d ∈ rest.head?, d.isAlphanum = false) :
    ρ.respell (c :: (others ++ rest)) =
      ' ' :: ((ρ.apply (String.ofList (c :: others))).toList ++ ' ' :: ρ.respell rest) := by
  rw [ρ.respell_of_scan? (Item.scan?_eq_some_iff.mpr (.word hc ho hr)), spell, List.cons_append, List.append_assoc]
  rfl

theorem respell_char {c : Char} {cs : List Char} (hl : NumberLiteral.scan? (c :: cs) = none) (hc : c.isAlpha = false) :
    ρ.respell (c :: cs) = c :: ρ.respell cs := by
  rw [ρ.respell_of_scan? (Item.scan?_eq_some_iff.mpr (.char hl hc))]
  unfold Item.ofChar
  cases Operator.ofSymbol? c <;> rfl

/-- The new text begins like the old one, or with a blank in place of a letter. -/
theorem head?_respell (text : List Char) :
    ∀ c ∈ (ρ.respell text).head?, c = ' ' ∨ (c ∈ text.head? ∧ c.isAlpha = false) := by
  intro c hc
  induction text using text_induction with
  | nil => simp at hc
  | literal l cs rest hl =>
    have hne := NumberLiteral.text_ne_nil_of_scan? hl
    rw [ρ.respell_literal hl, List.head?_append_of_ne_nil _ hne] at hc
    have hcs := NumberLiteral.text_append_of_scan? hl
    rw [← hcs, List.head?_append_of_ne_nil _ hne]
    refine Or.inr ⟨hc, NumberLiteral.isAlpha_of_scan? hl c ?_⟩
    rwa [← hcs, List.head?_append_of_ne_nil _ hne]
  | word d others rest hd ho hr =>
    rw [ρ.respell_word hd ho hr] at hc
    cases hc
    exact Or.inl rfl
  | char d cs hl hd =>
    rw [ρ.respell_char hl hd] at hc
    cases hc
    exact Or.inr ⟨rfl, hd⟩

/-! ## The items of the new text -/

theorem endsBefore_respell {cs rest : List Char} {l : NumberLiteral} (h : NumberLiteral.scan? cs = some (l, rest)) :
    l.EndsBefore (ρ.respell rest) := by
  intro c hc
  rcases ρ.head?_respell rest c hc with rfl | ⟨hr, ha⟩
  · exact ⟨rfl, fun _ => ⟨by decide, by decide, fun _ => by decide⟩⟩
  · obtain ⟨hdigit, hdot⟩ := NumberLiteral.head_of_scan? h c hr
    refine ⟨hdigit, fun he => ⟨?_, ?_, hdot he⟩⟩
    · rintro rfl
      cases ha
    · rintro rfl
      cases ha

theorem scan?_literal_respell {cs rest : List Char} {l : NumberLiteral} (h : NumberLiteral.scan? cs = some (l, rest)) :
    NumberLiteral.scan? (l.text ++ ρ.respell rest) = some (l, ρ.respell rest) :=
  NumberLiteral.scan?_text_of_endsBefore (NumberLiteral.wellFormed_of_scan? h) (ρ.endsBefore_respell h)

theorem scan?_char_respell {c : Char} {cs : List Char} (h : NumberLiteral.scan? (c :: cs) = none) :
    NumberLiteral.scan? (c :: ρ.respell cs) = none := by
  obtain ⟨hdigit, hdot⟩ := NumberLiteral.scan?_cons_eq_none_iff.mp h
  refine NumberLiteral.scan?_cons_eq_none_iff.mpr ⟨hdigit, fun hc d hd => ?_⟩
  rcases ρ.head?_respell cs d hd with rfl | ⟨hd, -⟩
  · rfl
  · exact hdot hc d hd

theorem itemsOf_respell (text : List Char) : itemsOf (ρ.respell text) = (itemsOf text).map (Item.rename ρ.apply) := by
  induction text using text_induction with
  | nil => simp [itemsOf_nil]
  | literal l cs rest h ih =>
    have hl := NumberLiteral.wellFormed_of_scan? h
    have hne := NumberLiteral.text_ne_nil_of_scan? h
    have hblank (rest : List Char) : ∀ c ∈ (l.text ++ rest).head?, isBlank c = false := by
      intro c hc
      rw [List.head?_append_of_ne_nil _ hne] at hc
      exact isBlank_of_mem_literal hl (List.mem_of_mem_head? hc)
    have htext := NumberLiteral.text_append_of_scan? h
    rw [ρ.respell_literal h, itemsOf_of_begins (hblank _) (.literal (ρ.scan?_literal_respell h)),
      itemsOf_of_begins (htext ▸ hblank rest) (.literal h), ih]
    rfl
  | word c others rest hc ho hr ih =>
    have hword : isWord (ρ.apply (String.ofList (c :: others))) = true := ρ.isWord_apply.trans (isWord_ofList hc ho)
    obtain ⟨c', others', himage, hc', ho'⟩ := exists_chars_of_isWord hword
    have hold := itemsOf_of_begins (by simp [isBlank_of_isAlpha hc]) (.word hc ho hr)
    have hspace : ∀ d ∈ (' ' :: ρ.respell rest).head?, d.isAlphanum = false := by simp
    have hnew := itemsOf_of_begins (by simp [isBlank_of_isAlpha hc']) (.word hc' ho' hspace)
    rw [ρ.respell_word hc ho hr, itemsOf_cons_blank rfl, himage, String.toList_ofList, List.cons_append, hnew, hold,
      itemsOf_cons_blank rfl, ih, List.map_cons, Item.rename, Lexeme.rename, himage]
  | char c cs hl hc ih =>
    rw [ρ.respell_char hl hc]
    by_cases hb : isBlank c = true
    · rw [itemsOf_cons_blank hb, itemsOf_cons_blank hb, ih]
    · have hblank (tail : List Char) : ∀ d ∈ (c :: tail).head?, isBlank d = false := by simpa using hb
      rw [itemsOf_of_begins (hblank _) (.char (ρ.scan?_char_respell hl) hc),
        itemsOf_of_begins (hblank _) (.char hl hc), ih, List.map_cons, Item.rename_ofChar]

/-! ## The lines of the new text -/

theorem newline_not_mem_respell {text : List Char} (h : '\n' ∉ text) : '\n' ∉ ρ.respell text := by
  induction text using text_induction with
  | nil => simp
  | literal l cs rest hl ih =>
    rw [← NumberLiteral.text_append_of_scan? hl, List.mem_append, not_or] at h
    rw [ρ.respell_literal hl, List.mem_append, not_or]
    exact ⟨h.1, ih h.2⟩
  | word c others rest hc ho hr ih =>
    have himage := newline_not_mem_of_isWord (ρ.isWord_apply.trans (isWord_ofList hc ho))
    simp only [List.mem_cons, List.mem_append, not_or] at h
    rw [ρ.respell_word hc ho hr]
    simp only [List.mem_cons, List.mem_append, not_or]
    exact ⟨by decide, himage, by decide, ih h.2.2⟩
  | char c cs hl hc ih =>
    rw [List.mem_cons, not_or] at h
    rw [ρ.respell_char hl hc, List.mem_cons, not_or]
    exact ⟨h.1, ih h.2⟩

theorem respell_append_newline (line rest : List Char) :
    ρ.respell (line ++ '\n' :: rest) = ρ.respell line ++ '\n' :: ρ.respell rest := by
  induction line using text_induction with
  | nil =>
    have hnone : NumberLiteral.scan? ('\n' :: rest) = none := NumberLiteral.scan?_cons_eq_none_iff.mpr ⟨rfl, by simp⟩
    rw [List.nil_append, ρ.respell_char hnone rfl, respell_nil, List.nil_append]
  | literal l cs tail hl ih =>
    have hl' := NumberLiteral.scan?_append_newline cs rest
    rw [hl] at hl'
    rw [ρ.respell_literal hl, ρ.respell_literal hl', ih, List.append_assoc]
  | word c others tail hc ho hr ih =>
    have hr' : ∀ d ∈ (tail ++ '\n' :: rest).head?, d.isAlphanum = false := by
      cases tail with
      | nil => simp
      | cons d tail => exact hr
    rw [List.cons_append, List.append_assoc, ρ.respell_word hc ho hr, ρ.respell_word hc ho hr', ih]
    simp
  | char c cs hl hc ih =>
    have hl' := NumberLiteral.scan?_append_newline (c :: cs) rest
    rw [hl, List.cons_append] at hl'
    rw [List.cons_append, ρ.respell_char hl hc, ρ.respell_char hl' hc, ih, List.cons_append]

theorem respell_ne_nil {text : List Char} (h : text ≠ []) : ρ.respell text ≠ [] := by
  induction text using text_induction with
  | nil => exact absurd rfl h
  | literal l cs rest hl =>
    rw [ρ.respell_literal hl]
    exact List.append_ne_nil_of_left_ne_nil (NumberLiteral.text_ne_nil_of_scan? hl) _
  | word c others rest hc ho hr => simp [ρ.respell_word hc ho hr]
  | char c cs hl hc => simp [ρ.respell_char hl hc]

theorem lineCount_respell (text : List Char) : Text.lineCount (ρ.respell text) = Text.lineCount text := by
  induction text using Text.newline_induction with
  | last line hn =>
    by_cases hl : line = []
    · rw [hl, respell_nil]
    · rw [Text.lineCount_of_line hn hl, Text.lineCount_of_line (ρ.newline_not_mem_respell hn) (ρ.respell_ne_nil hl)]
  | line line rest hn ih =>
    rw [ρ.respell_append_newline, Text.lineCount_append_newline hn,
      Text.lineCount_append_newline (ρ.newline_not_mem_respell hn), ih]

theorem numberedItems_respell (text : List Char) :
    numberedItems (ρ.respell text) = (numberedItems text).map fun p => (p.1.rename ρ.apply, p.2) := by
  induction text using Text.newline_induction with
  | last line hn =>
    rw [numberedItems_of_line hn, numberedItems_of_line (ρ.newline_not_mem_respell hn), itemsOf_respell, List.map_map,
      List.map_map]
    rfl
  | line line rest hn ih =>
    rw [ρ.respell_append_newline, numberedItems_append_newline hn,
      numberedItems_append_newline (ρ.newline_not_mem_respell hn), itemsOf_respell, ih]
    simp only [List.map_append, List.map_map]
    rfl

end Renaming

end DeskCalculator
