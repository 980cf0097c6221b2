import DeskCalculator.Proofs.Calculator.Invariants
import DeskCalculator.Proofs.Stream.Buffer

/-!
# The cursor of a stream

Whatever is done to a stream, there is a line of the input in its buffer, or nothing, and the cursor is on a boundary in
it.
-/

namespace DeskCalculator

open TokenStream

/-- A stream over a source that has been used in any way, whatever was put back on it. -/
inductive TokenStream.Visited (source : Source) : TokenStream → Prop where
  | start : Visited source (ofSource source)
  | next {s} (symbols : SymbolTable) (h : Visited source s) : Visited source (next symbols s).2
  | putBack {s} (token : Token) (h : Visited source s) : Visited source (putBack token s).2
  | skipPast {s} (op : Operator) (h : Visited source s) : Visited source (skipPast op s).2
  | primary {s} (symbols : SymbolTable) (h : Visited source s) : Visited source (primary symbols s).2
  | term {s} (symbols : SymbolTable) (h : Visited source s) : Visited source (term symbols s).2
  | expression {s} (symbols : SymbolTable) (h : Visited source s) : Visited source (expression symbols s).2
  | statement {s} (symbols : SymbolTable) (h : Visited source s) : Visited source (statement symbols s).2

namespace TokenStream

variable {source : Source} {symbols : SymbolTable} {lines : List (List UInt8)} {s s' : TokenStream}

/-- The streams that a call of the grammar passes through have been visited, too. -/
theorem Visited.of_moves (h : Visited source s) (hm : Moves symbols s s') : Visited source s' := by
  induction hm with
  | refl => exact h
  | tail _ hm ih =>
    cases hm with
    | take ht _ | fail ht =>
      have := ih.next symbols
      rwa [ht] at this
    | @look token s₁ ht =>
      have := (ih.next symbols).putBack token
      rwa [ht, putBack_eq_holding (pushedBack_of_next ht)] at this

/-- A valid buffer stands behind the stream. -/
def Buffered (lines : List (List UInt8)) (s : TokenStream) : Prop :=
  ∃ b : LineBuffer, b.Shows s.reader ∧ b.Valid lines

theorem buffered_next (symbols : SymbolTable) (hs : Buffered lines s) : Buffered lines (next symbols s).2 := by
  cases hp : s.pushedBack with
  | some token =>
    rw [next_of_held hp]
    exact hs
  | none =>
    obtain ⟨b, hb, hv⟩ := hs
    obtain ⟨b', -, hb', hv'⟩ := LineBuffer.agrees_takeItem hb hv
    refine ⟨b', ?_, hv'⟩
    rcases next_of_takeItem symbols hp with ⟨lexeme, -, ht⟩ | ⟨c, -, ht⟩ | ⟨-, ht⟩ <;> rw [ht] <;> exact hb'

theorem buffered_putBack (token : Token) (hs : Buffered lines s) : Buffered lines (putBack token s).2 := by
  unfold putBack
  split <;> exact hs

theorem buffered_skipPast (op : Operator) (hs : Buffered lines s) : Buffered lines (skipPast op s).2 := by
  obtain ⟨b, hb, hv⟩ := hs
  rw [snd_skipPast]
  split
  · exact ⟨b, hb, hv⟩
  · obtain ⟨b', -, hb', hv'⟩ := LineBuffer.agrees_skipPast op.symbol hb hv
    exact ⟨b', hb', hv'⟩

theorem invariant_buffered (symbols : SymbolTable) (lines : List (List UInt8)) :
    Invariant symbols (Buffered lines) where
  taken hs ht := by
    have := buffered_next symbols hs
    rwa [ht] at this
  looked hs ht := by
    have := buffered_next symbols hs
    rw [ht] at this
    exact this

theorem buffered_ofBytes (bytes : List UInt8) (failure : Option String) :
    Buffered (Text.splitLines bytes) (ofSource (.ofBytes bytes failure)) := by
  cases failure with
  | none => exact ⟨_, ⟨rfl, rfl, rfl, rfl⟩, LineBuffer.valid_ofLines (List.prefix_refl _)⟩
  | some reason =>
    have := Text.filter_splitLines_prefix bytes []
    rw [List.append_nil] at this
    exact ⟨_, ⟨rfl, rfl, rfl, rfl⟩, LineBuffer.valid_ofLines this⟩

theorem buffered_of_visited (hstart : Buffered lines (ofSource source)) (h : Visited source s) : Buffered lines s := by
  induction h with
  | start => exact hstart
  | next symbols _ ih => exact buffered_next symbols ih
  | putBack token _ ih => exact buffered_putBack token ih
  | skipPast op _ ih => exact buffered_skipPast op ih
  | primary symbols _ ih => exact (invariant_buffered symbols lines).of_reads ih (primary_eq_iff.mp rfl) (by simp)
  | term symbols _ ih => exact (invariant_buffered symbols lines).of_reads ih (term_eq_iff.mp rfl) (by simp)
  | expression symbols _ ih => exact (invariant_buffered symbols lines).of_reads ih (expression_eq_iff.mp rfl) (by simp)
  | statement symbols _ ih => exact (invariant_buffered symbols lines).of_statement ih

/-- However a stream was used, exactly one valid buffer stands behind it. The next item is read from there without a
fault, as is the text that is skipped, and a stray character that comes was in the buffer. -/
theorem buffer_of_visited {bytes : List UInt8} {failure : Option String} (h : Visited (.ofBytes bytes failure) s) :
    ∃ b : LineBuffer, b.Shows s.reader ∧ b.Valid (Text.splitLines bytes) ∧
      (∀ b' : LineBuffer, b'.Shows s.reader → b'.Valid (Text.splitLines bytes) → b' = b) ∧
      LineBuffer.Agrees (Text.splitLines bytes) b.takeItem s.reader.takeItem ∧
      (∀ c b', b.takeItem = .ok (some (.stray c), b') → b'.IsBehind c) ∧
      ∀ target, LineBuffer.Agrees (Text.splitLines bytes) (b.skipPast target) (s.reader.skipPast target) := by
  obtain ⟨b, hb, hv⟩ := buffered_of_visited (buffered_ofBytes bytes failure) h
  exact ⟨b, hb, hv, fun b' hb' hv' => LineBuffer.eq_of_shows hb' hv' hb hv, LineBuffer.agrees_takeItem hb hv,
    fun _ _ ht => LineBuffer.isBehind_of_takeItem ht, fun target => LineBuffer.agrees_skipPast target hb hv⟩

/-- A byte of the line is malformed, and its replacement takes up three. The last line is never seen. -/
theorem buffer_of_visited_behind_replacement :
    let bytes := [0xc3, 0xa9, 0xff, 0xe2, 0x82, 0xac, 0x20, 0x2a, 0x20, 0xe2, 0x82, 0xac, 0x0a, 0x78]
    let s₁ := (next .constants (ofSource (.ofBytes bytes (some "broken")))).2
    let s₂ := (skipPast .times (putBack .endOfInput s₁).2).2
    s₂.line = 1 ∧ s₂.reader.cursor.offset = 10 ∧
      ∃ b : LineBuffer, b.Shows s₂.reader ∧ b.Valid (Text.splitLines bytes) ∧
        (∀ b' : LineBuffer, b'.Shows s₂.reader → b'.Valid (Text.splitLines bytes) → b' = b) ∧
        LineBuffer.Agrees (Text.splitLines bytes) b.takeItem s₂.reader.takeItem ∧
        (∀ c b', b.takeItem = .ok (some (.stray c), b') → b'.IsBehind c) ∧
        ∀ target, LineBuffer.Agrees (Text.splitLines bytes) (b.skipPast target) (s₂.reader.skipPast target) := by
  intro bytes s₁ s₂
  exact ⟨by decide +kernel, by decide +kernel,
    buffer_of_visited (((Visited.start.next .constants).putBack .endOfInput).skipPast .times)⟩

end TokenStream

end DeskCalculator
