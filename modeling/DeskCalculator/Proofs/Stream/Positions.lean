import DeskCalculator.Proofs.Stream.Deliveries
import DeskCalculator.Proofs.Stream.Exhaustion
import DeskCalculator.Proofs.Stream.Skipping

/-!
# Places in a source

Tokens come without lines; a stream has the number of the line that it lexed last. `StandsAt` says which item of the
source a stream delivers next, and that a token that was put back is the item on that line. So the line after a
delivery is the line of what was delivered.
-/

namespace DeskCalculator

open TokenStream

/-! ## Lines only go up -/

namespace LineReader

theorem le_line_itemFrom (cursor : Cursor) (line : Nat) (upcoming : List (List Char)) :
    line ≤ (itemFrom cursor line upcoming).2.line := by
  induction upcoming generalizing cursor line with
  | nil =>
    rw [itemFrom.eq_def]
    cases cursor.next? <;> exact Nat.le_refl _
  | cons text upcoming ih =>
    rw [itemFrom.eq_def]
    cases cursor.next? with
    | none => exact Nat.le_trans (Nat.le_succ line) (ih _ _)
    | some located => exact Nat.le_refl _

theorem le_line_skipFrom (target : Char) (cursor : Cursor) (line : Nat) (upcoming : List (List Char)) :
    line ≤ (skipFrom target cursor line upcoming).2.line := by
  induction upcoming generalizing cursor line with
  | nil =>
    rw [skipFrom.eq_def]
    cases cursor.skipPast? target <;> exact Nat.le_refl _
  | cons text upcoming ih =>
    rw [skipFrom.eq_def]
    cases cursor.skipPast? target with
    | none => exact Nat.le_trans (Nat.le_succ line) (ih _ _)
    | some cursor' => exact Nat.le_refl _

end LineReader

namespace TokenStream

theorem le_line_next (symbols : SymbolTable) (s : TokenStream) : s.line ≤ (next symbols s).2.line := by
  cases hp : s.pushedBack with
  | some token => simp [next, hp, line]
  | none =>
    have hle : s.line ≤ s.reader.takeItem.2.line := LineReader.le_line_itemFrom ..
    rcases next_of_takeItem symbols hp with ⟨_, -, ht⟩ | ⟨_, -, ht⟩ | ⟨-, ht⟩ <;> rw [ht] <;> exact hle

theorem le_line_of_next {symbols : SymbolTable} {s s' : TokenStream} {answer : Except Error Token}
    (ht : next symbols s = (answer, s')) : s.line ≤ s'.line := by
  have := le_line_next symbols s
  rwa [ht] at this

theorem le_line_skipPast (op : Operator) (s : TokenStream) : s.line ≤ (skipPast op s).2.line := by
  rw [snd_skipPast]
  unfold line
  simp only
  split
  · exact Nat.le_refl _
  · exact LineReader.le_line_skipFrom ..

/-! ## The line after each delivery -/

variable {symbols : SymbolTable} {s s' : TokenStream}

/-- The lines on which calls of `next` leave the stream, one after the other. -/
def deliveryLines (symbols : SymbolTable) : TokenStream → Nat → Nat
  | s, 0 => (next symbols s).2.line
  | s, n + 1 => deliveryLines symbols (next symbols s).2 n

theorem deliveryLines_of_delivers {ws : List Token} (h : Delivers symbols s ws s') (n : Nat) :
    s'.deliveryLines symbols n = s.deliveryLines symbols (ws.length + n) := by
  induction h with
  | nil => simp
  | cons ht _ ih =>
    rw [ih, List.length_cons, Nat.add_right_comm]
    simp [deliveryLines, ht]

theorem deliveryLines_of_passes {ws : List Token} (h : Passes symbols s ws s') :
    s.deliveryLines symbols ws.length = (next symbols s').2.line := by
  obtain ⟨s₁, h₁, hn⟩ := h
  rw [hn]
  exact (deliveryLines_of_delivers h₁ 0).symm

theorem le_deliveryLines (symbols : SymbolTable) (s : TokenStream) (n : Nat) : s.line ≤ s.deliveryLines symbols n := by
  induction n generalizing s with
  | zero => exact le_line_next symbols s
  | succ n ih => exact Nat.le_trans (le_line_next symbols s) (ih _)

end TokenStream

/-! ## The items of a source -/

namespace Source

/-- The items of the text, each with its line. -/
def items (source : Source) : List (Item × Nat) := numberedFrom 1 source.lines

def itemAt (source : Source) (k : Nat) : Option Item := source.items[k]?.map Prod.fst

/-- The line of an item. Behind the last one stands the end, on the last line of the text. -/
def lineOf (source : Source) (k : Nat) : Nat := (source.items[k]?.map Prod.snd).getD source.lines.length

/-- The `k`-th item is what was delivered: a lexeme, by the table of that moment, or a stray character. Behind the last
item this is the end, or the failure. -/
def Answers (source : Source) (k : Nat) (answer : Except Error Token) : Prop :=
  match source.itemAt k with
  | some (.lexeme lexeme) => ∃ symbols, answer = .ok (.ofLexeme symbols lexeme)
  | some (.stray c) => answer = .error (.statement (.badToken c.toString) (source.lineOf k))
  | none => answer = (ofSource source).atEnd .endOfInput

theorem line_mem_of_mem {item : Item} {line first : Nat} {lines : List (List Char)}
    (h : (item, line) ∈ numberedFrom first lines) : first ≤ line ∧ line < first + lines.length := by
  induction lines generalizing first with
  | nil => cases h
  | cons text lines ih =>
    rw [List.length_cons]
    rcases List.mem_append.mp h with h | h
    · obtain ⟨_, -, he⟩ := List.mem_map.mp h
      cases he
      omega
    · have := ih h
      omega

variable {source : Source} {k : Nat}

theorem lineOf_le (source : Source) (k : Nat) : source.lineOf k ≤ source.lines.length := by
  unfold lineOf
  cases h : source.items[k]? with
  | none => exact Nat.le_refl _
  | some p =>
    have := line_mem_of_mem (List.mem_of_getElem? h)
    simp only [Option.map_some, Option.getD_some]
    omega

theorem one_le_lineOf (h : source.lines ≠ []) (k : Nat) : 1 ≤ source.lineOf k := by
  unfold lineOf
  cases hk : source.items[k]? with
  | none => exact List.length_pos_iff.mpr h
  | some p =>
    have := line_mem_of_mem (List.mem_of_getElem? hk)
    exact this.1

/-- The end is delivered behind all items, if the input does not fail there. -/
theorem of_answers_end (h : source.Answers k (.ok .endOfInput)) :
    source.lineOf k = source.lines.length ∧ source.failure = none := by
  unfold Answers itemAt at h
  unfold lineOf
  cases hk : source.items[k]? with
  | none =>
    rw [hk] at h
    exact ⟨rfl, of_atEnd_eq_ok (s := ofSource source) h.symm⟩
  | some p =>
    rw [hk] at h
    obtain ⟨item, line⟩ := p
    cases item with
    | lexeme lexeme =>
      obtain ⟨symbols, he⟩ := h
      exact absurd (Except.ok.inj he).symm (ofLexeme_ne_endOfInput symbols lexeme)
    | stray c => cases h

theorem answers_of_lines_nil {answer : Except Error Token} (hl : source.lines = []) (h : source.Answers k answer) :
    answer = (ofSource source).atEnd .endOfInput := by
  unfold Answers itemAt items at h
  rw [hl] at h
  exact h

end Source

/-! ## Where a stream stands -/

/-- The items that a stream has not taken are those of the source from some place on, and its slot is empty. -/
structure ReadsFrom (source : Source) (s : TokenStream) (k : Nat) : Prop where
  slot : s.pushedBack = none
  failure : s.failure = source.failure
  last : s.reader.lastLine = source.lines.length
  waiting : s.reader.numbered = source.items.drop k

/-- The stream delivers the `k`-th item of the source next. -/
inductive StandsAt (source : Source) : TokenStream → Nat → Prop where
  | reads {s k} (h : ReadsFrom source s k) : StandsAt source s k
  | holds {s k token} (h : ReadsFrom source s (k + 1)) (hl : s.line = source.lineOf k)
      (ht : source.Answers k (.ok token)) : StandsAt source (s.holding token) k

section
variable {source : Source} {symbols : SymbolTable} {s s' : TokenStream} {k : Nat} {answer : Except Error Token}

theorem readsFrom_ofSource (source : Source) : ReadsFrom source (ofSource source) 0 where
  slot := rfl
  failure := rfl
  last := Nat.zero_add _
  waiting := by
    simp [ofSource, LineReader.ofLines, LineReader.numbered, numberedFrom, Cursor.atStart, itemsOf_nil, Source.items]

/-- A call of `next` answers with the item at which the stream stands, and leaves the stream on the line of it. -/
theorem next_of_readsFrom (h : ReadsFrom source s k) (ht : next symbols s = (answer, s')) :
    source.Answers k answer ∧ ReadsFrom source s' (k + 1) ∧ s'.line = source.lineOf k := by
  obtain ⟨hp, hf, hlast, hw⟩ := h
  cases hk : source.items[k]? with
  | none =>
    have hle : source.items.length ≤ k := List.getElem?_eq_none_iff.mp hk
    rw [List.drop_eq_nil_of_le hle] at hw
    have htake := LineReader.takeItem_of_numbered_nil hw
    have hn : next symbols s = ((ofSource source).atEnd .endOfInput,
        { s with reader := ⟨.atStart [], s.reader.lastLine, []⟩ }) := by
      simp [next, hp, htake, atEnd, ofSource, hf]
    cases hn.symm.trans ht
    refine ⟨?_, ⟨hp, hf, hlast, ?_⟩, ?_⟩
    · rw [Source.Answers, Source.itemAt, hk]
      rfl
    · rw [List.drop_eq_nil_of_le (Nat.le_succ_of_le hle)]
      exact LineReader.numbered_of_nothing _
    · rw [Source.lineOf, hk]
      exact hlast
  | some p =>
    obtain ⟨item, number⟩ := p
    obtain ⟨hlt, hget⟩ := List.getElem?_eq_some_iff.mp hk
    rw [List.drop_eq_getElem_cons hlt, hget] at hw
    obtain ⟨r, htake, hline, hrest, hlast'⟩ := LineReader.takeItem_of_numbered_cons hw
    have hnumber : source.lineOf k = number := by
      rw [Source.lineOf, hk]
      rfl
    have hreads : ReadsFrom source { s with reader := r } (k + 1) := ⟨hp, hf, hlast'.trans hlast, hrest⟩
    rw [Source.Answers, Source.itemAt, hk, hnumber]
    cases item with
    | lexeme lexeme =>
      have hn : next symbols s = (.ok (.ofLexeme symbols lexeme), { s with reader := r }) := by
        simp [next, hp, htake]
      cases hn.symm.trans ht
      exact ⟨⟨symbols, rfl⟩, hreads, hline⟩
    | stray c =>
      have hn : next symbols s = (.error (.statement (.badToken c.toString) r.line), { s with reader := r }) := by
        simp [next, hp, htake, TokenStream.line]
      cases hn.symm.trans ht
      subst hline
      exact ⟨rfl, hreads, rfl⟩

theorem next_of_standsAt (h : StandsAt source s k) (ht : next symbols s = (answer, s')) :
    source.Answers k answer ∧ ReadsFrom source s' (k + 1) ∧ s'.line = source.lineOf k := by
  cases h with
  | reads h => exact next_of_readsFrom h ht
  | holds h hl ha =>
    rw [next_holding h.slot] at ht
    cases ht
    exact ⟨ha, h, hl⟩

theorem standsAt_holding {token : Token} (h : StandsAt source s k) (ht : next symbols s = (.ok token, s')) :
    StandsAt source (s'.holding token) k := by
  obtain ⟨ha, hr, hl⟩ := next_of_standsAt h ht
  exact .holds hr hl ha

theorem readsFrom_of_suffix {r : LineReader} (hf : s.failure = source.failure)
    (hl : r.lastLine = source.lines.length) (h : r.numbered <:+ source.items) :
    ∃ k, ReadsFrom source { s with reader := r, pushedBack := none } k := by
  rw [List.suffix_iff_eq_drop] at h
  exact ⟨_, rfl, hf, hl, h⟩

theorem skipPast_of_standsAt {op : Operator} (hp : op ≠ .plus) (hm : op ≠ .minus) (h : StandsAt source s k) :
    ∃ k', ReadsFrom source (skipPast op s).2 k' := by
  have hreads : ∃ k, s.failure = source.failure ∧ s.reader.lastLine = source.lines.length ∧
      s.reader.numbered = source.items.drop k := by
    cases h with
    | reads h => exact ⟨k, h.failure, h.last, h.waiting⟩
    | holds h => exact ⟨k + 1, h.failure, h.last, h.waiting⟩
  obtain ⟨k', hf, hl, hw⟩ := hreads
  have hsuffix : s.reader.numbered <:+ source.items := hw ▸ List.drop_suffix k' _
  rw [snd_skipPast]
  split
  · exact readsFrom_of_suffix hf hl hsuffix
  · have hskip : (s.reader.skipPast op.symbol).2.lastLine = s.reader.lastLine ∧
        (s.reader.skipPast op.symbol).2.numbered <:+ s.reader.numbered := by
      cases hfrom : fromOperator op s.reader.numbered with
      | nil =>
        have hs : s.reader.skipPast op.symbol = (false, ⟨.atStart [], s.reader.lastLine, []⟩) :=
          LineReader.skipFrom_of_fromOperator_nil hp hm hfrom
        rw [hs, LineReader.numbered_of_nothing]
        exact ⟨rfl, List.nil_suffix⟩
      | cons first rest =>
        obtain ⟨item, line⟩ := first
        obtain ⟨r, hs, -, hrest, hlast⟩ := LineReader.skipFrom_of_fromOperator_cons hp hm hfrom
        have hs : s.reader.skipPast op.symbol = (true, r) := hs
        have hfound : fromOperator op s.reader.numbered <:+ s.reader.numbered := List.dropWhile_suffix _
        rw [hfrom] at hfound
        rw [hs, hrest]
        exact ⟨hlast, (List.suffix_cons _ _).trans hfound⟩
    exact readsFrom_of_suffix hf (hskip.1.trans hl) (hskip.2.trans hsuffix)

theorem deliveries_of_standsAt (symbols : SymbolTable) (h : StandsAt source s k) (n : Nat) :
    source.Answers (k + n) (s.deliveries symbols n) ∧ s.deliveryLines symbols n = source.lineOf (k + n) := by
  have hn {s : TokenStream} : next symbols s = ((next symbols s).1, (next symbols s).2) := rfl
  induction n generalizing s k with
  | zero =>
    obtain ⟨ha, -, hl⟩ := next_of_standsAt h hn
    exact ⟨ha, hl⟩
  | succ n ih =>
    obtain ⟨-, hr, -⟩ := next_of_standsAt h hn
    have := ih (.reads hr)
    rwa [Nat.add_right_comm, Nat.add_assoc] at this

end

end DeskCalculator
