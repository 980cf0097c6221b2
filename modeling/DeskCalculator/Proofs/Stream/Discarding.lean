import DeskCalculator.Proofs.Stream.Exhaustion
import DeskCalculator.Proofs.Stream.Pieces
import DeskCalculator.Proofs.Text.Lines

/-!
# Skipping text and skipping tokens

A stream skips to an operator by looking for its character. Since the character stands in no other lexeme, this comes
to the same as taking tokens until the operator comes, with the same place left in the same line.
-/

namespace DeskCalculator

/-! ## Text -/

namespace Cursor

theorem skipPast?_append {target : Char} {front : List Char} (h : target ∉ front) (offset : Nat) (rest : List Char) :
    (mk offset (front ++ rest)).skipPast? target = (mk (offset + Text.utf8Length front) rest).skipPast? target := by
  have hne : ∀ c ∈ front, decide (c ≠ target) = true := fun c hc => decide_eq_true fun he => h (he ▸ hc)
  unfold skipPast?
  simp only [List.dropWhile_append_of_pos hne, List.takeWhile_append_of_pos hne, Text.utf8Length_append,
    Nat.add_assoc]

theorem skipPast?_skipBlanks (op : Operator) (c : Cursor) :
    c.skipBlanks.skipPast? op.symbol = c.skipPast? op.symbol := by
  have hblank : op.symbol ∉ c.rest.takeWhile isBlank := by
    intro hm
    have := List.mem_takeWhile_imp hm
    rw [Operator.isBlank_symbol] at this
    cases this
  have := skipPast?_append hblank c.offset (c.rest.dropWhile isBlank)
  rw [List.takeWhile_append_dropWhile] at this
  exact this.symm

theorem skipPast?_of_next?_none {op : Operator} {c : Cursor} (h : c.next? = none) : c.skipPast? op.symbol = none := by
  have hrest : c.skipBlanks.rest = [] := by
    unfold next? at h
    split at h
    · cases h
    · next hs => exact Item.scan?_eq_none hs
  rw [← skipPast?_skipBlanks, skipPast?, hrest]
  rfl

section
variable {op : Operator} (hp : op ≠ .plus) (hm : op ≠ .minus)
include hp hm

theorem skipPast?_of_next? {c : Cursor} {located : Located} (h : c.next? = some located) :
    c.skipPast? op.symbol = if located.item = .lexeme (.operator op) then some located.after
      else located.after.skipPast? op.symbol := by
  rw [← skipPast?_skipBlanks]
  unfold next? at h
  split at h
  · next item spelling rest hs =>
    cases h
    have hc : c.skipBlanks = ⟨c.skipBlanks.offset, spelling ++ rest⟩ := by
      rw [Item.text_append_of_scan? hs]
    rw [hc]
    split
    · next hi =>
      rw [show item = .lexeme (.operator op) from hi] at hs
      rw [Item.spelling_of_operator hs]
      simp [skipPast?, Text.utf8Length]
    · next hi => exact skipPast?_append (Item.symbol_not_mem hp hm hs hi) _ _
  · cases h

end

end Cursor

/-! ## Lines -/

namespace LineReader

theorem skipFrom_congr {target : Char} {c c' : Cursor} (h : c.skipPast? target = c'.skipPast? target) (line : Nat)
    (upcoming : List (List Char)) : skipFrom target c line upcoming = skipFrom target c' line upcoming := by
  rw [skipFrom.eq_def, skipFrom.eq_def target c', h]

section
variable {op : Operator} (hp : op ≠ .plus) (hm : op ≠ .minus)
include hp hm

theorem skipFrom_eq_itemFrom (cursor : Cursor) (line : Nat) (upcoming : List (List Char)) :
    skipFrom op.symbol cursor line upcoming =
      match itemFrom cursor line upcoming with
      | (none, r) => (false, r)
      | (some item, r) => if item = .lexeme (.operator op) then (true, r) else r.skipPast op.symbol := by
  induction upcoming generalizing cursor line with
  | nil =>
    rw [itemFrom.eq_def]
    cases hn : cursor.next? with
    | none =>
      rw [skipFrom.eq_def, Cursor.skipPast?_of_next?_none hn]
    | some located =>
      have hs := Cursor.skipPast?_of_next? hp hm hn
      by_cases hi : located.item = .lexeme (.operator op)
      · rw [if_pos hi] at hs
        rw [skipFrom.eq_def, hs]
        simp only [hi, if_true]
      · rw [if_neg hi] at hs
        simp only [if_neg hi]
        exact skipFrom_congr hs line []
  | cons text upcoming ih =>
    rw [itemFrom.eq_def]
    cases hn : cursor.next? with
    | none =>
      rw [skipFrom.eq_def, Cursor.skipPast?_of_next?_none hn]
      exact ih (.atStart text) (line + 1)
    | some located =>
      have hs := Cursor.skipPast?_of_next? hp hm hn
      by_cases hi : located.item = .lexeme (.operator op)
      · rw [if_pos hi] at hs
        rw [skipFrom.eq_def, hs]
        simp only [hi, if_true]
      · rw [if_neg hi] at hs
        simp only [if_neg hi]
        exact skipFrom_congr hs line (text :: upcoming)

theorem skipPast_eq_takeItem (r : LineReader) : r.skipPast op.symbol =
    match r.takeItem with
    | (none, r') => (false, r')
    | (some item, r') => if item = .lexeme (.operator op) then (true, r') else r'.skipPast op.symbol :=
  skipFrom_eq_itemFrom hp hm r.cursor r.line r.upcoming

end

end LineReader

/-! ## Tokens -/

namespace TokenStream

/-- Takes tokens, and passes over what is none, until the operator comes or the end, or until the input fails. -/
inductive SkipsTokens (symbols : SymbolTable) (op : Operator) : TokenStream → Except Error Unit → TokenStream → Prop where
  | found {s s'} (ht : next symbols s = (.ok (.operator op), s')) : SkipsTokens symbols op s (.ok ()) s'
  | ended {s s'} (ht : next symbols s = (.ok .endOfInput, s')) : SkipsTokens symbols op s (.ok ()) s'
  | failed {s reason s'} (ht : next symbols s = (.error (.io reason), s')) :
      SkipsTokens symbols op s (.error (.io reason)) s'
  | token {s token s₁ r s'} (ht : next symbols s = (.ok token, s₁)) (ho : token ≠ .operator op)
      (he : token ≠ .endOfInput) (rest : SkipsTokens symbols op s₁ r s') : SkipsTokens symbols op s r s'
  | stray {s text line s₁ r s'} (ht : next symbols s = (.error (.statement (.badToken text) line), s₁))
      (rest : SkipsTokens symbols op s₁ r s') : SkipsTokens symbols op s r s'

variable {symbols : SymbolTable} {op : Operator} {s s' : TokenStream}

theorem skipPast_of_none (h : s.pushedBack = none) : skipPast op s =
    (if (s.reader.skipPast op.symbol).1 then .ok () else s.atEnd (),
      { s with reader := (s.reader.skipPast op.symbol).2 }) := by
  rw [skipPast_of_not_held (by simp [h]), h]

section
variable (hp : op ≠ .plus) (hm : op ≠ .minus)
include hp hm

/-- One step of skipping is one token taken. -/
theorem skipPast_eq_next (symbols : SymbolTable) (hs : s.Settled) : skipPast op s =
    match next symbols s with
    | (.ok token, s') => if token = .operator op ∨ token = .endOfInput then (.ok (), s') else skipPast op s'
    | (.error (.io reason), s') => (.error (.io reason), s')
    | (.error (.statement ..), s') => skipPast op s' := by
  cases hb : s.pushedBack with
  | some held =>
    rw [next_of_held hb]
    by_cases ho : held = .operator op
    · subst ho
      simpa using skipPast_of_held hb
    · have hskip : skipPast op s = skipPast op { s with pushedBack := none } := by
        rw [skipPast_of_not_held (by simpa [hb] using ho), skipPast_of_none rfl]
        rfl
      by_cases he : held = .endOfInput
      · subst he
        obtain ⟨hf, hr⟩ := hs hb
        have hend := skipPast_of_exhausted op (s := { s with pushedBack := none }) ⟨rfl, hr⟩
        rw [atEnd_of_none (show ({ s with pushedBack := none } : TokenStream).failure = none from hf)] at hend
        simpa using hskip.trans hend
      · simpa [ho, he] using hskip
  | none =>
    have hreader := LineReader.skipPast_eq_takeItem hp hm s.reader
    rw [skipPast_of_none hb]
    rcases next_of_takeItem symbols hb with ⟨lexeme, hi, ht⟩ | ⟨c, hi, ht⟩ | ⟨hi, ht⟩
    · rw [ht]
      rw [show s.reader.takeItem = (some (.lexeme lexeme), s.reader.takeItem.2) from Prod.ext hi rfl] at hreader
      by_cases hl : lexeme = .operator op
      · subst hl
        simp only [if_true] at hreader
        simp [hreader, Token.ofLexeme]
      · have hne : Token.ofLexeme symbols lexeme ≠ .operator op := fun h => hl (Piece.ofLexeme_eq_operator.mp h)
        have hend := ofLexeme_ne_endOfInput symbols lexeme
        simp only [Item.lexeme.injEq, hl, if_false] at hreader
        simp only [hne, hend, or_self, if_false]
        rw [hreader, skipPast_of_none (s := { s with reader := s.reader.takeItem.2 }) hb]
        rfl
    · rw [ht]
      rw [show s.reader.takeItem = (some (.stray c), s.reader.takeItem.2) from Prod.ext hi rfl] at hreader
      simp only [reduceCtorEq, if_false] at hreader
      simp only
      rw [hreader, skipPast_of_none (s := { s with reader := s.reader.takeItem.2 }) hb]
      rfl
    · rw [ht]
      rw [show s.reader.takeItem = (none, s.reader.takeItem.2) from Prod.ext hi rfl] at hreader
      simp only at hreader
      rw [hreader]
      cases hf : s.failure with
      | none => simp [atEnd_of_none hf]
      | some reason => simp [atEnd_of_some hf]

theorem skipPast_of_skipsTokens {r : Except Error Unit} (hs : s.Settled) (h : SkipsTokens symbols op s r s') :
    skipPast op s = (r, s') := by
  induction h with
  | failed ht => rw [skipPast_eq_next hp hm symbols hs, ht]
  | found ht | ended ht =>
    rw [skipPast_eq_next hp hm symbols hs, ht]
    exact if_pos (by simp)
  | token ht ho he _ ih =>
    rw [skipPast_eq_next hp hm symbols hs, ht]
    simpa [ho, he] using ih (settled_of_none (pushedBack_of_next ht))
  | stray ht _ ih =>
    rw [skipPast_eq_next hp hm symbols hs, ht]
    exact ih (settled_of_none (pushedBack_of_next ht))

end

theorem exists_skipsTokens (symbols : SymbolTable) (op : Operator) (s : TokenStream) :
    ∃ r s', SkipsTokens symbols op s r s' := by
  -- Every token but the end, and every stray character, is a piece of the text less.
  induction hn : s.pieces.length using Nat.strongRecOn generalizing s with
  | ind n ih =>
    cases ht : next symbols s with
    | mk answer s₁ =>
      cases answer with
      | ok token =>
        by_cases ho : token = .operator op
        · exact ⟨_, _, .found (ho ▸ ht)⟩
        by_cases he : token = .endOfInput
        · exact ⟨_, _, .ended (he ▸ ht)⟩
        rcases of_next_ok ht with ⟨p, hpieces, -⟩ | ⟨-, -, hend, -⟩
        · obtain ⟨r, s', hrest⟩ := ih s₁.pieces.length (by simp [← hn, hpieces]) s₁ rfl
          exact ⟨r, s', .token ht ho he hrest⟩
        · exact absurd hend he
      | error e =>
        rcases of_next_error ht with ⟨c, hpieces, rfl⟩ | ⟨-, -, reason, -, rfl⟩
        · obtain ⟨r, s', hrest⟩ := ih s₁.pieces.length (by simp [← hn, hpieces]) s₁ rfl
          exact ⟨r, s', .stray ht hrest⟩
        · exact ⟨_, _, .failed ht⟩

theorem skipPast_iff_of_settled (hp : op ≠ .plus) (hm : op ≠ .minus) (hs : s.Settled) {r : Except Error Unit} :
    skipPast op s = (r, s') ↔ SkipsTokens symbols op s r s' := by
  constructor
  · intro h
    obtain ⟨r', s'', h'⟩ := exists_skipsTokens symbols op s
    cases h.symm.trans (skipPast_of_skipsTokens hp hm hs h')
    exact h'
  · exact skipPast_of_skipsTokens hp hm hs

end TokenStream

end DeskCalculator
