import DeskCalculator.Proofs.Stream.Lines

/-!
# Lexing a text all at once

An eager stream has lexed its whole text before the first token is asked for, and keeps a place in front
for a token that comes back. `Step` lists what it may do. A token stream over bytes, which reads a line
when it needs one and starts lexing anew for every item, answers exactly as the eager stream over the
decoded text: `observe_iff_eager`.
-/

namespace DeskCalculator

open TokenStream

/-- What a caller of a stream may do. Every call comes with a table of its own. -/
inductive Action where
  | next (symbols : SymbolTable)
  | putBack (token : Token)

/-- What an action answers: a token that is delivered, nothing for one that is taken back. -/
abbrev Answer := Except Error (Option Token)

/-! ## The eager stream -/

/-- What a lexeme is to the grammar: keywords first, then names with a value, then other names. -/
inductive Classified (symbols : SymbolTable) : Lexeme → Token → Prop where
  | number (value : Binary64) : Classified symbols (.number value) (.number value)
  | operator (op : Operator) : Classified symbols (.operator op) (.operator op)
  | keyword (k : Keyword) : Classified symbols (.word k.word) (.keyword k)
  | declared {word value} (hk : ∀ k : Keyword, k.word ≠ word) (hv : symbols.find? word = some value) :
      Classified symbols (.word word) (.number value)
  | identifier {word} (hk : ∀ k : Keyword, k.word ≠ word) (hv : symbols.find? word = none) :
      Classified symbols (.word word) (.identifier word)

/-- The items of a text that are still to be delivered, each with its line, the number of the last line,
the token that was put back, and the line that was reached. -/
structure EagerStream where
  waiting : List (Item × Nat)
  lastLine : Nat
  pushedBack : Option Token
  line : Nat

namespace EagerStream

def ofText (text : List Char) : EagerStream := ⟨numberedItems text, Text.lineCount text, none, 0⟩

inductive Step : EagerStream → Action → Answer → EagerStream → Prop where
  | held {e symbols token} (hp : e.pushedBack = some token) :
      Step e (.next symbols) (.ok (some token)) { e with pushedBack := none }
  | token {e symbols lexeme line rest token} (hp : e.pushedBack = none)
      (hw : e.waiting = (.lexeme lexeme, line) :: rest) (hc : Classified symbols lexeme token) :
      Step e (.next symbols) (.ok (some token)) { e with waiting := rest, line := line }
  | stray {e symbols c line rest} (hp : e.pushedBack = none) (hw : e.waiting = (.stray c, line) :: rest) :
      Step e (.next symbols) (.error (.statement (.badToken c.toString) line))
        { e with waiting := rest, line := line }
  | endOfInput {e symbols} (hp : e.pushedBack = none) (hw : e.waiting = []) :
      Step e (.next symbols) (.ok (some .endOfInput)) { e with line := e.lastLine }
  | putBack {e token} (hp : e.pushedBack = none) :
      Step e (.putBack token) (.ok none) { e with pushedBack := some token }
  | overflow {e token held} (hp : e.pushedBack = some held) :
      Step e (.putBack token) (.error (.statement .pushbackOverflow e.line)) e

/-- Some actions one after the other, each with what it answers and the line after it. -/
inductive Runs : EagerStream → List Action → List (Answer × Nat) → Prop where
  | nil {e} : Runs e [] []
  | cons {e action answer e' actions observed} (step : Step e action answer e') (rest : Runs e' actions observed) :
      Runs e (action :: actions) ((answer, e'.line) :: observed)

end EagerStream

/-! ## What a token stream shows -/

namespace TokenStream

def perform (s : TokenStream) : Action → Answer × TokenStream
  | .next symbols => ((next symbols s).1.map some, (next symbols s).2)
  | .putBack token => ((putBack token s).1.map fun _ => none, (putBack token s).2)

/-- What some actions answer one after the other, and the line after each. -/
def observe : TokenStream → List Action → List (Answer × Nat)
  | _, [] => []
  | s, action :: actions => ((s.perform action).1, (s.perform action).2.line) :: (s.perform action).2.observe actions

/-- The eager stream that a token stream stands for. -/
def eager (s : TokenStream) : EagerStream := ⟨s.reader.numbered, s.reader.lastLine, s.pushedBack, s.line⟩

end TokenStream

/-! ## Classes of lexemes -/

theorem classified_iff {symbols : SymbolTable} {lexeme : Lexeme} {token : Token} :
    Classified symbols lexeme token ↔ Token.ofLexeme symbols lexeme = token := by
  constructor
  · intro h
    cases h with
    | number value => rfl
    | operator op => rfl
    | keyword k => simp [Token.ofLexeme, Keyword.ofWord?_word]
    | declared hk hv => simp [Token.ofLexeme, Keyword.ofWord?_eq_none_iff.mpr hk, hv]
    | identifier hk hv => simp [Token.ofLexeme, Keyword.ofWord?_eq_none_iff.mpr hk, hv]
  · rintro rfl
    cases lexeme with
    | number value => exact .number value
    | operator op => exact .operator op
    | word word =>
      simp only [Token.ofLexeme]
      cases hk : Keyword.ofWord? word with
      | some k =>
        obtain rfl := Keyword.word_of_ofWord? hk
        exact .keyword k
      | none =>
        cases hv : symbols.find? word with
        | some value => exact .declared (Keyword.ofWord?_eq_none_iff.mp hk) hv
        | none => exact .identifier (Keyword.ofWord?_eq_none_iff.mp hk) hv

/-! ## Step by step -/

namespace EagerStream

theorem Step.unique {e e' e'' : EagerStream} {action : Action} {answer answer' : Answer}
    (h : Step e action answer e') (h' : Step e action answer' e'') : answer = answer' ∧ e' = e'' := by
  -- What is held and what waits decides which rule applies.
  cases h with
  | held hp => cases h' <;> simp_all
  | token hp hw hc =>
    cases h' with
    | token hp' hw' hc' =>
      rw [hw] at hw'
      cases hw'
      rw [← classified_iff.mp hc, ← classified_iff.mp hc']
      exact ⟨rfl, rfl⟩
    | _ => simp_all
  | stray hp hw => cases h' <;> simp_all
  | endOfInput hp hw => cases h' <;> simp_all
  | putBack hp => cases h' <;> simp_all
  | overflow hp => cases h' <;> simp_all

end EagerStream

theorem step_next (symbols : SymbolTable) {s : TokenStream} (hf : s.failure = none) :
    s.eager.Step (.next symbols) (s.perform (.next symbols)).1 (s.perform (.next symbols)).2.eager := by
  cases hp : s.pushedBack with
  | some token =>
    simp only [perform, next_of_held hp]
    exact .held hp
  | none =>
    cases hw : s.reader.numbered with
    | nil =>
      have ht := LineReader.takeItem_of_numbered_nil hw
      have hn : next symbols s = (.ok .endOfInput, { s with reader := ⟨.atStart [], s.reader.lastLine, []⟩ }) := by
        simp [next, hp, ht, atEnd, hf]
      have hr : (⟨.atStart [], s.reader.lastLine, []⟩ : LineReader).numbered = s.reader.numbered := by
        rw [hw, LineReader.numbered_of_nothing]
      have he : ({ s with reader := ⟨.atStart [], s.reader.lastLine, []⟩ } : TokenStream).eager =
          { s.eager with line := s.reader.lastLine } := by
        simp only [eager, hr]
        rfl
      simp only [perform, hn, he]
      exact .endOfInput hp hw
    | cons first rest =>
      obtain ⟨item, line⟩ := first
      obtain ⟨r, ht, rfl, rfl, hlast⟩ := LineReader.takeItem_of_numbered_cons hw
      have he : ({ s with reader := r } : TokenStream).eager =
          { s.eager with waiting := r.numbered, line := r.line } := by
        simp [eager, hlast, TokenStream.line]
      cases item with
      | lexeme lexeme =>
        have hn : next symbols s = (.ok (.ofLexeme symbols lexeme), { s with reader := r }) := by
          simp [next, hp, ht]
        simp only [perform, hn, he]
        exact .token hp hw (classified_iff.mpr rfl)
      | stray c =>
        have hn : next symbols s =
            (.error (.statement (.badToken c.toString) r.line), { s with reader := r }) := by
          simp [next, hp, ht, TokenStream.line]
        simp only [perform, hn, he]
        exact .stray hp hw

theorem step_putBack (token : Token) (s : TokenStream) :
    s.eager.Step (.putBack token) (s.perform (.putBack token)).1 (s.perform (.putBack token)).2.eager := by
  cases hp : s.pushedBack with
  | none =>
    simp only [perform, putBack_of_none hp]
    exact .putBack hp
  | some held =>
    have hn : putBack token s = (.error (.statement .pushbackOverflow s.line), s) := by simp [putBack, hp]
    simp only [perform, hn]
    exact .overflow hp

theorem step_iff_perform {s : TokenStream} (hf : s.failure = none) {action : Action} {answer : Answer}
    {e : EagerStream} :
    s.eager.Step action answer e ↔ (s.perform action).1 = answer ∧ (s.perform action).2.eager = e := by
  have h : s.eager.Step action (s.perform action).1 (s.perform action).2.eager := by
    cases action with
    | next symbols => exact step_next symbols hf
    | putBack token => exact step_putBack token s
  constructor
  · exact h.unique
  · rintro ⟨rfl, rfl⟩
    exact h

theorem failure_perform (s : TokenStream) (action : Action) : (s.perform action).2.failure = s.failure := by
  cases action with
  | next symbols => exact failure_next symbols s
  | putBack token =>
    simp only [perform, putBack]
    split <;> rfl

/-! ## Whole runs -/

theorem runs_iff_observe {s : TokenStream} (hf : s.failure = none) {actions : List Action}
    {observed : List (Answer × Nat)} : s.eager.Runs actions observed ↔ s.observe actions = observed := by
  induction actions generalizing s observed with
  | nil =>
    constructor
    · intro h
      cases h
      rfl
    · rintro rfl
      exact .nil
  | cons action actions ih =>
    have hf' := (failure_perform s action).trans hf
    constructor
    · intro h
      cases h with
      | cons step rest =>
        obtain ⟨rfl, rfl⟩ := (step_iff_perform hf).mp step
        rw [observe, (ih hf').mp rest]
        rfl
    · rintro rfl
      exact .cons ((step_iff_perform hf).mpr ⟨rfl, rfl⟩) ((ih hf').mpr rfl)

theorem eager_ofBytes (bytes : List UInt8) :
    (ofSource (.ofBytes bytes none)).eager = .ofText (Text.decode bytes) := by
  have hn := LineReader.numbered_ofLines bytes
  have hl : (LineReader.ofLines (Text.lines bytes)).lastLine = Text.lineCount (Text.decode bytes) := by
    rw [← Text.length_lines]
    exact Nat.zero_add _
  rw [EagerStream.ofText, ← hn, ← hl]
  rfl

/-- Whatever is asked of a stream over some bytes, it shows what the eager stream over their text shows,
and nothing else. -/
theorem observe_iff_eager (bytes : List UInt8) (actions : List Action) (observed : List (Answer × Nat)) :
    (ofSource (.ofBytes bytes none)).observe actions = observed ↔
      (EagerStream.ofText (Text.decode bytes)).Runs actions observed := by
  rw [← eager_ofBytes]
  exact (runs_iff_observe rfl).symm

end DeskCalculator
