import DeskCalculator.Proofs.Stream.Actions

/-!
# The end of a text

A stream whose text is used up, with nothing put back, answers the same from then on and stays as it is. A call of
`next` that meets the end, or the failure there, leaves the stream like that; so does skipping that finds nothing.
-/

namespace DeskCalculator

namespace LineReader

/-- There is nothing left in the current line, and no line after it. -/
def Exhausted (r : LineReader) : Prop := r.cursor = .atStart [] ∧ r.upcoming = []

theorem exhausted_of_itemFrom {cursor : Cursor} {line : Nat} {upcoming : List (List Char)}
    (h : (itemFrom cursor line upcoming).1 = none) : (itemFrom cursor line upcoming).2.Exhausted := by
  induction upcoming generalizing cursor line with
  | nil =>
    rw [itemFrom.eq_def] at h ⊢
    cases hn : cursor.next? with
    | none => exact ⟨rfl, rfl⟩
    | some located => simp [hn] at h
  | cons text upcoming ih =>
    rw [itemFrom.eq_def] at h ⊢
    cases hn : cursor.next? with
    | none =>
      simp only [hn] at h ⊢
      exact ih h
    | some located => simp [hn] at h

theorem exhausted_of_skipFrom {target : Char} {cursor : Cursor} {line : Nat} {upcoming : List (List Char)}
    (h : (skipFrom target cursor line upcoming).1 = false) : (skipFrom target cursor line upcoming).2.Exhausted := by
  induction upcoming generalizing cursor line with
  | nil =>
    rw [skipFrom.eq_def] at h ⊢
    cases hn : cursor.skipPast? target with
    | none => exact ⟨rfl, rfl⟩
    | some cursor' => simp [hn] at h
  | cons text upcoming ih =>
    rw [skipFrom.eq_def] at h ⊢
    cases hn : cursor.skipPast? target with
    | none =>
      simp only [hn] at h ⊢
      exact ih h
    | some cursor' => simp [hn] at h

theorem takeItem_of_exhausted {r : LineReader} (h : r.Exhausted) : r.takeItem = (none, r) := by
  obtain ⟨cursor, line, upcoming⟩ := r
  obtain ⟨rfl, rfl⟩ : cursor = .atStart [] ∧ upcoming = [] := h
  rfl

theorem skipPast_of_exhausted {r : LineReader} (h : r.Exhausted) (target : Char) : r.skipPast target = (false, r) := by
  obtain ⟨cursor, line, upcoming⟩ := r
  obtain ⟨rfl, rfl⟩ : cursor = .atStart [] ∧ upcoming = [] := h
  rfl

end LineReader

namespace TokenStream

/-- The text is used up, and no token was put back. -/
def Exhausted (s : TokenStream) : Prop := s.pushedBack = none ∧ s.reader.Exhausted

/-- The end is put back only behind a text that is used up and has not failed. -/
def Settled (s : TokenStream) : Prop := s.pushedBack = some .endOfInput → s.failure = none ∧ s.reader.Exhausted

variable {symbols : SymbolTable} {s s' : TokenStream}

theorem next_of_exhausted (symbols : SymbolTable) (h : s.Exhausted) : next symbols s = (s.atEnd .endOfInput, s) := by
  obtain ⟨reader, failure, pushedBack⟩ := s
  obtain ⟨rfl, hr⟩ : pushedBack = none ∧ reader.Exhausted := h
  unfold next
  simp only [LineReader.takeItem_of_exhausted hr]

theorem skipPast_of_exhausted (op : Operator) (h : s.Exhausted) : skipPast op s = (s.atEnd (), s) := by
  obtain ⟨reader, failure, pushedBack⟩ := s
  obtain ⟨rfl, hr⟩ : pushedBack = none ∧ reader.Exhausted := h
  rw [skipPast_of_not_held (by simp)]
  simp only [LineReader.skipPast_of_exhausted hr]
  rfl

/-- What `next` does with an empty slot, by the item that it takes. -/
theorem next_of_takeItem (symbols : SymbolTable) (hp : s.pushedBack = none) :
    (∃ lexeme, s.reader.takeItem.1 = some (.lexeme lexeme) ∧
        next symbols s = (.ok (.ofLexeme symbols lexeme), { s with reader := s.reader.takeItem.2 })) ∨
      (∃ c, s.reader.takeItem.1 = some (.stray c) ∧ next symbols s =
        (.error (.statement (.badToken c.toString) s.reader.takeItem.2.line), { s with reader := s.reader.takeItem.2 })) ∨
      (s.reader.takeItem.1 = none ∧
        next symbols s = (s.atEnd .endOfInput, { s with reader := s.reader.takeItem.2 })) := by
  unfold next
  simp only [hp]
  split
  · next lexeme hi => exact .inl ⟨lexeme, hi, rfl⟩
  · next c hi => exact .inr (.inl ⟨c, hi, rfl⟩)
  · next hi => exact .inr (.inr ⟨hi, rfl⟩)

theorem ofLexeme_ne_endOfInput (symbols : SymbolTable) (lexeme : Lexeme) :
    Token.ofLexeme symbols lexeme ≠ .endOfInput := by
  unfold Token.ofLexeme
  split
  · simp
  · simp
  · split
    · simp
    · split <;> simp

theorem exhausted_of_next_io {reason : String} (h : next symbols s = (.error (.io reason), s')) :
    s'.Exhausted ∧ s'.failure = some reason := by
  have hp : s.pushedBack = none := by
    cases hp : s.pushedBack with
    | none => rfl
    | some token =>
      cases (next_of_held hp).symm.trans h
  rcases next_of_takeItem symbols hp with ⟨_, -, hn⟩ | ⟨_, -, hn⟩ | ⟨hi, hn⟩
  · cases hn.symm.trans h
  · cases hn.symm.trans h
  · rw [hn] at h
    obtain ⟨reason', hf, he⟩ := of_atEnd_eq_error (congrArg Prod.fst h)
    cases he
    cases congrArg Prod.snd h
    exact ⟨⟨hp, LineReader.exhausted_of_itemFrom hi⟩, hf⟩

theorem exhausted_of_next_end (hs : s.Settled) (h : next symbols s = (.ok .endOfInput, s')) :
    s'.Exhausted ∧ s'.failure = none := by
  cases hp : s.pushedBack with
  | some token =>
    cases (next_of_held hp).symm.trans h
    obtain ⟨hf, hr⟩ := hs hp
    exact ⟨⟨rfl, hr⟩, hf⟩
  | none =>
    rcases next_of_takeItem symbols hp with ⟨lexeme, -, hn⟩ | ⟨_, -, hn⟩ | ⟨hi, hn⟩
    · have he := congrArg Prod.fst (hn.symm.trans h)
      exact absurd (Except.ok.inj he) (ofLexeme_ne_endOfInput symbols lexeme)
    · cases hn.symm.trans h
    · rw [hn] at h
      have hf := of_atEnd_eq_ok (congrArg Prod.fst h)
      cases congrArg Prod.snd h
      exact ⟨⟨hp, LineReader.exhausted_of_itemFrom hi⟩, hf⟩

theorem exhausted_of_skipPast_io {op : Operator} {reason : String} (h : skipPast op s = (.error (.io reason), s')) :
    s'.Exhausted ∧ s'.failure = some reason := by
  obtain ⟨hb, hfound, reason', hf, he⟩ := of_skipPast_error (congrArg Prod.fst h)
  cases he
  rw [skipPast_of_not_held hb] at h
  cases congrArg Prod.snd h
  exact ⟨⟨rfl, LineReader.exhausted_of_skipFrom hfound⟩, hf⟩

theorem settled_of_none (h : s.pushedBack = none) : s.Settled := by
  intro he
  rw [h] at he
  cases he

theorem settled_holding (hs : s.Settled) {token : Token} (h : next symbols s = (.ok token, s')) :
    (s'.holding token).Settled := by
  intro he
  cases he
  obtain ⟨⟨-, hr⟩, hf⟩ := exhausted_of_next_end hs h
  exact ⟨hf, hr⟩

end TokenStream

end DeskCalculator
