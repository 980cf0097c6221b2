import DeskCalculator.Proofs.Calculator.Invariants
import DeskCalculator.Proofs.Stream.Discarding

/-!
# Streams that callers can reach

Whatever has been done to a stream, the end of the text is put back on it only when there is nothing left to read. So a
caller that discards a statement cannot tell whether text was skipped or tokens.
-/

namespace DeskCalculator

open TokenStream

/-- A stream over a source that has been used in any way, with the token that `next` has delivered last. Callers put
back no other. -/
inductive TokenStream.Reached (source : Source) : Option Token → TokenStream → Prop where
  | start : Reached source none (ofSource source)
  | next {last s symbols answer s'} (h : Reached source last s) (ht : next symbols s = (answer, s')) :
      Reached source (answer.toOption <|> last) s'
  | putBack {token s} (h : Reached source (some token) s) : Reached source (some token) (putBack token s).2
  | skipPast {last s} (op : Operator) (h : Reached source last s) : Reached source last (skipPast op s).2
  | primary {last s} (symbols : SymbolTable) (h : Reached source last s) : Reached source last (primary symbols s).2
  | term {last s} (symbols : SymbolTable) (h : Reached source last s) : Reached source last (term symbols s).2
  | expression {last s} (symbols : SymbolTable) (h : Reached source last s) :
      Reached source last (expression symbols s).2
  | statement {last s} (symbols : SymbolTable) (h : Reached source last s) :
      Reached source last (statement symbols s).2

namespace TokenStream

variable {symbols : SymbolTable} {s s' : TokenStream}

theorem reader_of_exhausted {answer : Except Error Token} (hr : s.reader.Exhausted)
    (ht : next symbols s = (answer, s')) : s'.reader = s.reader := by
  cases hp : s.pushedBack with
  | some token =>
    cases (next_of_held hp).symm.trans ht
    rfl
  | none =>
    cases (next_of_exhausted symbols ⟨hp, hr⟩).symm.trans ht
    rfl

/-- Where the end was put back, or could be, there is nothing left to read. -/
structure Closed (last : Option Token) (s : TokenStream) : Prop where
  settled : s.Settled
  ended : last = some .endOfInput → s.failure = none ∧ s.reader.Exhausted

theorem invariant_closed (symbols : SymbolTable) (last : Option Token) : Invariant symbols (Closed last) := by
  have hended {s answer s'} (hs : Closed last s) (ht : next symbols s = (answer, s')) :
      last = some .endOfInput → s'.failure = none ∧ s'.reader.Exhausted := by
    intro hl
    obtain ⟨hf, hr⟩ := hs.ended hl
    rw [failure_of_next ht, reader_of_exhausted hr ht]
    exact ⟨hf, hr⟩
  refine ⟨fun hs ht => ⟨settled_of_none (pushedBack_of_next ht), hended hs ht⟩, fun hs ht => ?_⟩
  have := hended hs ht
  exact ⟨settled_holding hs.settled ht, this⟩

theorem closed_of_reached {source : Source} {last : Option Token} (h : Reached source last s) : Closed last s := by
  induction h with
  | start => exact ⟨settled_of_none rfl, fun hl => by cases hl⟩
  | @next last s symbols answer s' _ ht ih =>
    refine ⟨settled_of_none (pushedBack_of_next ht), fun hl => ?_⟩
    cases answer with
    | error e => exact ((invariant_closed symbols last).taken ih ht).ended hl
    | ok token =>
      cases hl
      obtain ⟨⟨-, hr⟩, hf⟩ := exhausted_of_next_end ih.settled ht
      exact ⟨hf, hr⟩
  | @putBack token s _ ih =>
    unfold putBack
    split
    · exact ih
    · refine ⟨fun he => ?_, ih.ended⟩
      cases he
      exact ih.ended rfl
  | @skipPast last s op _ ih =>
    refine ⟨settled_of_none (pushedBack_skipPast op s), fun hl => ?_⟩
    obtain ⟨hf, hr⟩ := ih.ended hl
    refine ⟨(failure_skipPast op s).trans hf, ?_⟩
    rw [snd_skipPast]
    simp only [LineReader.skipPast_of_exhausted hr, ite_self]
    exact hr
  | @primary last s symbols _ ih =>
    exact (invariant_closed symbols last).of_reads ih (primary_eq_iff.mp rfl) (by simp)
  | @term last s symbols _ ih =>
    exact (invariant_closed symbols last).of_reads ih (term_eq_iff.mp rfl) (by simp)
  | @expression last s symbols _ ih =>
    exact (invariant_closed symbols last).of_reads ih (expression_eq_iff.mp rfl) (by simp)
  | statement symbols _ ih => exact (invariant_closed symbols _).of_statement ih

/-- On every stream that callers can reach, and for every operator but the signs, skipping text gives the result that
skipping tokens gives, and leaves the same stream. -/
theorem skipPast_iff_skipsTokens {source : Source} {last : Option Token} (h : Reached source last s)
    (symbols : SymbolTable) {op : Operator} (hp : op ≠ .plus) (hm : op ≠ .minus) (r : Except Error Unit)
    (s' : TokenStream) : skipPast op s = (r, s') ↔ SkipsTokens symbols op s r s' :=
  skipPast_iff_of_settled hp hm (closed_of_reached h).settled

/-- A name that was put back, a stray character and a literal with a sign stand before the `=` that is looked for. -/
theorem skipPast_iff_skipsTokens_behind_name :
    let s₁ := (next .constants (ofSource ⟨["b @ 1e+5 é\n".toList, "( * 2 =".toList], none⟩)).2
    ∀ r s', skipPast .equals (putBack (.identifier "b") s₁).2 = (r, s') ↔
      SkipsTokens .constants .equals (putBack (.identifier "b") s₁).2 r s' := by
  intro s₁
  have ht : next .constants (ofSource ⟨["b @ 1e+5 é\n".toList, "( * 2 =".toList], none⟩) =
      (.ok (.identifier "b"), s₁) := Prod.ext (by decide +kernel) rfl
  have h := Reached.putBack (Reached.start.next ht)
  exact skipPast_iff_skipsTokens h .constants (by decide) (by decide)

end TokenStream

end DeskCalculator
