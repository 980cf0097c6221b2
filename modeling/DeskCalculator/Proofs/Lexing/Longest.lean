import DeskCalculator.Proofs.Lexing.Items

/-!
# The longest lexeme

`Lexeme.Matches` gives the texts of each lexeme apart from how they are scanned. What is scanned off a text is
the longest of its beginnings that are a lexeme; where none is, it is one stray character.
-/

namespace DeskCalculator

/-! ## The longest literal -/

namespace ExponentPart

theorem exists_scan?_text {e : ExponentPart} (h : e.WellFormed) (rest : List Char) : ∃ e' rest',
    scan? (e.text ++ rest) = some (e', rest') ∧ e.text.length ≤ e'.text.length := by
  obtain ⟨mark, sign, digits⟩ := e
  obtain ⟨hm, hs, hn, hd⟩ := h
  have hhead : ∀ c ∈ (digits ++ rest).head?, c.isDigit = true := by
    intro c hc
    rw [List.head?_append, List.head?_eq_some_head hn] at hc
    cases hc
    exact hd _ (List.head_mem hn)
  have hsplit : splitSign (sign.toList ++ (digits ++ rest)) = (sign, digits ++ rest) :=
    splitSign_sign_append hs hhead
  have hrun : (digits ++ rest).takeWhile Char.isDigit = digits ++ rest.takeWhile Char.isDigit :=
    List.takeWhile_append_of_pos hd
  have hne : (digits ++ rest).takeWhile Char.isDigit ≠ [] := by
    simp [hrun, hn]
  refine ⟨⟨mark, sign, digits ++ rest.takeWhile Char.isDigit⟩, (digits ++ rest).dropWhile Char.isDigit, ?_, ?_⟩
  · simp only [text, List.cons_append, List.append_assoc, scan?, hm, if_true, hsplit]
    rw [if_neg hne, hrun]
  · simp only [text, List.length_cons, List.length_append]
    omega

end ExponentPart

namespace NumberLiteral

theorem length_text (l : NumberLiteral) : l.text.length = l.whole.length +
    ((l.fraction.map ('.' :: ·)).getD []).length + ((l.exponent.map ExponentPart.text).getD []).length := by
  simp only [text, List.length_append]

section
variable {exponent : Option ExponentPart} (he : ∀ e ∈ exponent, e.WellFormed) (rest : List Char)
include he

theorem length_le_withExponent (whole : List Char) (fraction : Option (List Char)) :
    (NumberLiteral.mk whole fraction exponent).text.length ≤
      (withExponent whole fraction ((exponent.map ExponentPart.text).getD [] ++ rest)).1.text.length := by
  cases exponent with
  | none =>
    unfold withExponent
    split <;> simp only [length_text, Option.map_none, Option.getD_none, List.length_nil] <;> omega
  | some e =>
    obtain ⟨e', rest', hs, hle⟩ := ExponentPart.exists_scan?_text (he e rfl) rest
    simp only [withExponent, Option.map_some, Option.getD_some, hs, length_text]
    omega

/-- Digits in front of an exponent end with it; where there is none, they may go on. -/
theorem exists_digits {digits : List Char} (hd : ∀ c ∈ digits, c.isDigit = true) : ∃ more rest',
    (digits ++ ((exponent.map ExponentPart.text).getD [] ++ rest)).takeWhile Char.isDigit = digits ++ more ∧
      (digits ++ ((exponent.map ExponentPart.text).getD [] ++ rest)).dropWhile Char.isDigit =
        (exponent.map ExponentPart.text).getD [] ++ rest' := by
  rw [List.takeWhile_append_of_pos hd, List.dropWhile_append_of_pos hd]
  cases exponent with
  | none => exact ⟨rest.takeWhile Char.isDigit, rest.dropWhile Char.isDigit, rfl, rfl⟩
  | some e =>
    have hmark : e.mark.isDigit = false := by
      rcases (he e rfl).mark with hm | hm <;> rw [hm] <;> rfl
    exact ⟨[], rest, by simp [ExponentPart.text, hmark], by simp [ExponentPart.text, hmark]⟩

end

theorem exists_scan?_of_fraction {whole fraction : List Char} {exponent : Option ExponentPart}
    (h : (NumberLiteral.mk whole (some fraction) exponent).WellFormed) (rest : List Char) : ∃ l' rest',
    scan? ((NumberLiteral.mk whole (some fraction) exponent).text ++ rest) = some (l', rest') ∧
      (NumberLiteral.mk whole (some fraction) exponent).text.length ≤ l'.text.length := by
  have htext : (NumberLiteral.mk whole (some fraction) exponent).text ++ rest =
      whole ++ '.' :: (fraction ++ ((exponent.map ExponentPart.text).getD [] ++ rest)) := by
    simp [text]
  obtain ⟨more, rest', htake, hdrop⟩ := exists_digits h.exponent rest (h.fraction fraction rfl)
  have hpoint : ∀ c ∈ ('.' :: (fraction ++ ((exponent.map ExponentPart.text).getD [] ++ rest))).head?,
      c.isDigit = false := by
    intro c hc
    cases hc
    rfl
  have hn : ¬ (whole = [] ∧ fraction ++ more = []) := by
    rintro ⟨hw, hf⟩
    rcases h.digit with hd | hd
    · exact hd hw
    · exact hd (List.append_eq_nil_iff.mp hf).1
  have hscan : scan? (whole ++ '.' :: (fraction ++ ((exponent.map ExponentPart.text).getD [] ++ rest))) =
      some (withExponent whole (some (fraction ++ more)) ((exponent.map ExponentPart.text).getD [] ++ rest')) := by
    unfold scan?
    simp only [takeWhile_append_run h.whole hpoint, dropWhile_append_run h.whole hpoint, htake, hdrop, if_neg hn]
  have hle := length_le_withExponent h.exponent rest' whole (some (fraction ++ more))
  rw [htext]
  refine ⟨_, _, hscan, Nat.le_trans ?_ hle⟩
  simp only [length_text, Option.map_some, Option.getD_some, List.length_cons, List.length_append]
  omega

theorem exists_scan?_of_whole {whole : List Char} {exponent : Option ExponentPart}
    (h : (NumberLiteral.mk whole none exponent).WellFormed) (rest : List Char) : ∃ l' rest',
    scan? ((NumberLiteral.mk whole none exponent).text ++ rest) = some (l', rest') ∧
      (NumberLiteral.mk whole none exponent).text.length ≤ l'.text.length := by
  have htext : (NumberLiteral.mk whole none exponent).text ++ rest =
      whole ++ ((exponent.map ExponentPart.text).getD [] ++ rest) := by
    simp [text]
  obtain ⟨more, rest', htake, hdrop⟩ := exists_digits h.exponent rest h.whole
  have hn : whole ++ more ≠ [] := by
    have := h.digit
    simp_all
  rw [htext]
  unfold scan?
  simp only [htake, hdrop, hn, false_and, if_false]
  split
  · next tail hdot =>
    -- A point behind the digits can only be one behind the literal, which then has no exponent.
    have hlonger := whole_withExponent (whole ++ more) (some (tail.takeWhile Char.isDigit)) (tail.dropWhile Char.isDigit)
    refine ⟨(withExponent _ _ _).1, _, rfl, ?_⟩
    cases exponent with
    | some e =>
      simp only [Option.map_some, Option.getD_some, ExponentPart.text, List.cons_append, List.cons.injEq] at hdot
      rcases (h.exponent e rfl).mark with hm | hm <;> rw [hm] at hdot <;> cases hdot.1
    | none =>
      rw [length_text, length_text, hlonger]
      simp only [List.length_append, Option.map_none, Option.getD_none, List.length_nil]
      omega
  · have hle := length_le_withExponent h.exponent rest' (whole ++ more) none
    refine ⟨_, _, rfl, Nat.le_trans ?_ hle⟩
    simp only [length_text, List.length_append]
    omega

/-- Where a literal stands first, one that is at least as long is found. -/
theorem exists_scan?_text {l : NumberLiteral} (h : l.WellFormed) (rest : List Char) : ∃ l' rest',
    scan? (l.text ++ rest) = some (l', rest') ∧ l.text.length ≤ l'.text.length := by
  obtain ⟨whole, fraction, exponent⟩ := l
  cases fraction with
  | some fraction => exact exists_scan?_of_fraction h rest
  | none => exact exists_scan?_of_whole h rest

end NumberLiteral

/-! ## Lexemes and their texts -/

/-- The patterns of a lexeme: literals, words that begin with a letter, and the nine operators. -/
inductive Lexeme.Matches : Lexeme → List Char → Prop where
  | number {l : NumberLiteral} (h : l.WellFormed) : Matches (.number l.value) l.text
  | word {c : Char} {others : List Char} (hc : c.isAlpha = true) (ho : ∀ d ∈ others, d.isAlphanum = true) :
      Matches (.word (String.ofList (c :: others))) (c :: others)
  | operator (op : Operator) : Matches (.operator op) [op.symbol]

/-- In front of a text the lexeme has this spelling: it is the one that the spelling matches, and no longer
beginning of the text matches any. A stray character stands where nothing does. -/
def Item.Longest : Item → List Char → List Char → Prop
  | .lexeme l, spelling, rest => (∀ other : Lexeme, other.Matches spelling ↔ other = l) ∧
      ∀ (other : Lexeme) (longer more : List Char), other.Matches longer → longer ++ more = spelling ++ rest →
        longer.length ≤ spelling.length
  | .stray c, spelling, rest => spelling = [c] ∧
      ∀ (other : Lexeme) (text more : List Char), other.Matches text → text ++ more ≠ c :: rest

namespace Lexeme

theorem scan?_of_matches {lexeme : Lexeme} {text : List Char} (h : lexeme.Matches text) :
    Item.scan? text = some (.lexeme lexeme, text, []) := by
  cases h with
  | @number l hl =>
    have hbounded : NumberLiteral.Bounded [] := by simp [NumberLiteral.Bounded]
    have hs := NumberLiteral.scan?_text hl hbounded
    rw [List.append_nil] at hs
    exact Item.scan?_eq_some_iff.mpr (.literal hs)
  | @word c others hc ho =>
    have hb := @Item.Begins.word c others [] hc ho (by simp)
    rw [List.append_nil] at hb
    exact Item.scan?_eq_some_iff.mpr hb
  | operator op => cases op <;> rfl

theorem Matches.unique {lexeme other : Lexeme} {text : List Char} (h : lexeme.Matches text)
    (h' : other.Matches text) : other = lexeme := by
  have hs := scan?_of_matches h'
  rw [scan?_of_matches h] at hs
  cases hs
  rfl

/-- Where a lexeme stands first, an item is found that is at least as long. -/
theorem Matches.exists_scan? {lexeme : Lexeme} {text : List Char} (h : lexeme.Matches text) (more : List Char) :
    ∃ found spelling rest, Item.scan? (text ++ more) = some (.lexeme found, spelling, rest) ∧
      text.length ≤ spelling.length := by
  cases h with
  | number hl =>
    obtain ⟨l', rest, hs, hle⟩ := NumberLiteral.exists_scan?_text hl more
    exact ⟨_, _, _, Item.scan?_eq_some_iff.mpr (.literal hs), hle⟩
  | @word c others hc ho =>
    have hb := @Item.Begins.word c (others ++ more.takeWhile Char.isAlphanum) (more.dropWhile Char.isAlphanum) hc
      ?_ fun d hd => of_mem_head?_dropWhile hd
    · rw [List.append_assoc, List.takeWhile_append_dropWhile] at hb
      refine ⟨_, _, _, Item.scan?_eq_some_iff.mpr hb, ?_⟩
      simp only [List.length_cons, List.length_append]
      omega
    · intro d hd
      rcases List.mem_append.mp hd with hd | hd
      · exact ho d hd
      · exact List.mem_takeWhile_imp hd
  | operator op => exact ⟨.operator op, [op.symbol], more, by cases op <;> rfl, Nat.le_refl _⟩

end Lexeme

namespace Item

theorem matches_of_scan? {cs spelling rest : List Char} {lexeme : Lexeme}
    (h : scan? cs = some (.lexeme lexeme, spelling, rest)) : lexeme.Matches spelling := by
  generalize hi : Item.lexeme lexeme = item at h
  cases begins_of_scan? h with
  | literal hl =>
    cases hi
    exact .number (NumberLiteral.wellFormed_of_scan? hl)
  | word hc ho =>
    cases hi
    exact .word hc ho
  | @char c _ =>
    unfold ofChar at hi
    split at hi
    · next op ho =>
      cases hi
      rw [← Operator.symbol_of_ofSymbol? ho]
      exact .operator op
    · cases hi

theorem spelling_of_stray {cs spelling rest : List Char} {c : Char}
    (h : scan? cs = some (.stray c, spelling, rest)) : spelling = [c] := by
  have htext := text_append_of_scan? h
  rw [stray_of_scan? h, ← List.singleton_append] at htext
  exact List.append_cancel_right htext

theorem longest_of_scan? {cs spelling rest : List Char} {item : Item} (h : scan? cs = some (item, spelling, rest)) :
    item.Longest spelling rest := by
  cases item with
  | lexeme l =>
    have hm := matches_of_scan? h
    refine ⟨fun other => ⟨hm.unique, fun he => he ▸ hm⟩, ?_⟩
    intro other longer more hother htext
    obtain ⟨found, spelling', rest', hs, hle⟩ := hother.exists_scan? more
    rw [htext, text_append_of_scan? h, h] at hs
    cases hs
    exact hle
  | stray c =>
    refine ⟨spelling_of_stray h, ?_⟩
    intro other text more hother htext
    obtain ⟨found, spelling', rest', hs, -⟩ := hother.exists_scan? more
    rw [htext, ← stray_of_scan? h, h] at hs
    cases hs

end Item

end DeskCalculator
