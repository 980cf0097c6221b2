import DeskCalculator.Calculator.Progress
import DeskCalculator.Proofs.Grammar.Adequacy
import DeskCalculator.Proofs.Stream.Deliveries

/-!
# What evaluating a statement does

`Opens` skips the terminators before a statement, and `Evaluates` has one rule for each way in which
a statement ends. `evaluateNext_eq` and `exists_evaluates`: these are the only ones.
-/

namespace DeskCalculator

open TokenStream

instance decidableEqExcept {ε α : Type} [DecidableEq ε] [DecidableEq α] : DecidableEq (Except ε α)
  | .ok a, .ok b => decidable_of_iff (a = b) (by simp)
  | .error a, .error b => decidable_of_iff (a = b) (by simp)
  | .ok _, .error _ => isFalse nofun
  | .error _, .ok _ => isFalse nofun

variable {symbols : SymbolTable}

/-- The second stream is the first one without the terminators that come first. -/
def TokenStream.Opens (symbols : SymbolTable) (s s₀ : TokenStream) : Prop :=
  (∃ n, Delivers symbols s (List.replicate n (.operator .equals)) s₀) ∧
    (next symbols s₀).1 ≠ .ok (.operator .equals)

theorem exists_opens (symbols : SymbolTable) (s : TokenStream) : ∃ s₀, Opens symbols s s₀ := by
  fun_induction nextOfStatement symbols s with
  | case1 s s' h ih =>
    obtain ⟨s₀, ⟨n, hd⟩, hn⟩ := ih
    exact ⟨s₀, ⟨n + 1, .cons h hd⟩, hn⟩
  | case2 s h => exact ⟨s, ⟨0, .nil⟩, fun he => h _ (Prod.ext he rfl)⟩

theorem nextOfStatement_of_equals {s s' : TokenStream} (h : next symbols s = (.ok (.operator .equals), s')) :
    nextOfStatement symbols s = nextOfStatement symbols s' := by
  rw [nextOfStatement]
  split
  · next h' =>
    rw [h] at h'
    cases h'
    rfl
  · next h' => exact absurd h (h' _)

theorem nextOfStatement_of_other {s : TokenStream} (h : (next symbols s).1 ≠ .ok (.operator .equals)) :
    nextOfStatement symbols s = next symbols s := by
  rw [nextOfStatement]
  split
  · next h' => exact absurd (by rw [h']) h
  · rfl

theorem nextOfStatement_eq {s s₀ : TokenStream} (h : Opens symbols s s₀) :
    nextOfStatement symbols s = next symbols s₀ := by
  obtain ⟨⟨n, hd⟩, hn⟩ := h
  induction n generalizing s with
  | zero =>
    cases hd
    exact nextOfStatement_of_other hn
  | succ n ih =>
    obtain ⟨s₁, ht, hr⟩ := Delivers.cons_iff.mp hd
    rw [nextOfStatement_of_equals ht]
    exact ih hr

inductive Evaluates (symbols : SymbolTable) : TokenStream → Except Error Outcome → Calculator → Prop where
  | unread {s e s'} (ht : next symbols s = (.error e, s')) : Evaluates symbols s (.error e) ⟨s', symbols⟩
  | quit {s token s'} (ht : next symbols s = (.ok token, s')) (hq : token.isQuit = true) :
      Evaluates symbols s (.ok .quit) ⟨s', symbols⟩
  | expression {s token s₁ r s'} (ht : next symbols s = (.ok token, s₁)) (hq : token.isQuit = false)
      (hd : token ≠ .keyword .declare) (h : Reads symbols (.chain .sum) s r s') :
      Evaluates symbols s (r.map .value) ⟨s', symbols⟩
  | name_unread {s s₁ e s'} (hd : Delivers symbols s [.keyword .declare] s₁)
      (ht : next symbols s₁ = (.error e, s')) : Evaluates symbols s (.error e) ⟨s', symbols⟩
  | name_missing {s s₁ token s₂} (hd : Delivers symbols s [.keyword .declare] s₁)
      (ht : next symbols s₁ = (.ok token, s₂)) (hn : ∀ name, token ≠ .identifier name) :
      Evaluates symbols s (.error (.statement .expectedName s₂.line)) ⟨s₂.abandoned token, symbols⟩
  | equals_unread {s name s₁ e s'} (hd : Delivers symbols s [.keyword .declare, .identifier name] s₁)
      (ht : next symbols s₁ = (.error e, s')) : Evaluates symbols s (.error e) ⟨s', symbols⟩
  | equals_missing {s name s₁ token s₂} (hd : Delivers symbols s [.keyword .declare, .identifier name] s₁)
      (ht : next symbols s₁ = (.ok token, s₂)) (he : token ≠ .operator .equals) :
      Evaluates symbols s (.error (.statement (.expectedAssignment name) s₂.line)) ⟨s₂, symbols⟩
  | value_fails {s name s₁ e s'}
      (hd : Delivers symbols s [.keyword .declare, .identifier name, .operator .equals] s₁)
      (h : Reads symbols (.chain .sum) s₁ (.error e) s') : Evaluates symbols s (.error e) ⟨s', symbols⟩
  | redeclared {s name s₁ value s' cause}
      (hd : Delivers symbols s [.keyword .declare, .identifier name, .operator .equals] s₁)
      (h : Reads symbols (.chain .sum) s₁ (.ok value) s') (hv : symbols.declare name value = .error cause) :
      Evaluates symbols s (.error (.statement cause s'.line)) ⟨s', symbols⟩
  | declared {s name s₁ value s' symbols'}
      (hd : Delivers symbols s [.keyword .declare, .identifier name, .operator .equals] s₁)
      (h : Reads symbols (.chain .sum) s₁ (.ok value) s') (hv : symbols.declare name value = .ok symbols') :
      Evaluates symbols s (.ok (.value value)) ⟨s', symbols'⟩

/-! ## The rules are what the functions do -/

section
variable {s s₁ s₂ s₃ s' : TokenStream} {token : Token} {name : String}

theorem statement_of_expression {r : Except Error Binary64} (ht : next symbols s = (.ok token, s₁))
    (hd : token ≠ .keyword .declare) (h : Reads symbols (.chain .sum) s r s') :
    statement symbols s = ((r, symbols), s') := by
  have hp := pushedBack_of_next ht
  have hn : next symbols (s₁.holding token) = next symbols s := by rw [next_holding hp, ht]
  have hr := expression_eq_iff.mpr (h.congr hn)
  unfold statement
  rw [Evaluating.bind_of_ok ht]
  split
  · contradiction
  · refine (Evaluating.bind_of_ok (putBack_eq_holding hp token)).trans ?_
    exact Evaluating.reading_eq hr

theorem statement_of_declare (ht : next symbols s = (.ok (.keyword .declare), s₁)) :
    statement symbols s = declaration symbols s₁ := by
  unfold statement
  exact Evaluating.bind_of_ok ht

theorem declaration_of_error {e : Error} (ht : next symbols s = (.error e, s')) :
    declaration symbols s = ((.error e, symbols), s') := by
  unfold declaration
  exact Evaluating.bind_of_error ht

theorem declaration_of_other (ht : next symbols s = (.ok token, s')) (hn : ∀ name, token ≠ .identifier name) :
    declaration symbols s = ((.error (.statement .expectedName s'.line), symbols), s'.abandoned token) := by
  unfold declaration
  rw [Evaluating.bind_of_ok ht]
  split
  · next name => exact absurd rfl (hn name)
  · exact Evaluating.reading_eq (reject_eq (pushedBack_of_next ht) token _)

theorem declaration_of_name_error {e : Error} (hn : next symbols s = (.ok (.identifier name), s₁))
    (ht : next symbols s₁ = (.error e, s')) : declaration symbols s = ((.error e, symbols), s') := by
  unfold declaration
  rw [Evaluating.bind_of_ok hn]
  exact Evaluating.bind_of_error ht

theorem declaration_of_name_other (hn : next symbols s = (.ok (.identifier name), s₁))
    (ht : next symbols s₁ = (.ok token, s')) (he : token ≠ .operator .equals) :
    declaration symbols s = ((.error (.statement (.expectedAssignment name) s'.line), symbols), s') := by
  have hi : token.isOperator .equals = false := by simp [Token.isOperator, he]
  unfold declaration
  rw [Evaluating.bind_of_ok hn]
  simp only
  rw [Evaluating.bind_of_ok ht, hi]
  rfl

/-- Behind its `=` a declaration evaluates an expression, and declares the name only when that has come
to a value. -/
theorem declaration_of_equals (hn : next symbols s = (.ok (.identifier name), s₁))
    (he : next symbols s₁ = (.ok (.operator .equals), s₂)) : declaration symbols s =
      (do
        let value ← Evaluating.reading expression
        let line ← currentLine
        Evaluating.declare name value line : Evaluating Binary64) symbols s₂ := by
  unfold declaration
  rw [Evaluating.bind_of_ok hn]
  exact Evaluating.bind_of_ok he

theorem declaration_of_value_error {e : Error} (hn : next symbols s = (.ok (.identifier name), s₁))
    (he : next symbols s₁ = (.ok (.operator .equals), s₂)) (h : Reads symbols (.chain .sum) s₂ (.error e) s') :
    declaration symbols s = ((.error e, symbols), s') := by
  rw [declaration_of_equals hn he]
  exact Evaluating.bind_of_error (expression_eq_iff.mpr h)

theorem declaration_of_value {value : Binary64} (hn : next symbols s = (.ok (.identifier name), s₁))
    (he : next symbols s₁ = (.ok (.operator .equals), s₂)) (h : Reads symbols (.chain .sum) s₂ (.ok value) s') :
    declaration symbols s = Evaluating.declare name value s'.line symbols s' := by
  rw [declaration_of_equals hn he, Evaluating.bind_of_ok (expression_eq_iff.mpr h)]
  exact Evaluating.bind_of_ok (show currentLine s' = (.ok s'.line, s') from rfl)

end

namespace Calculator

section
variable {c c' : Calculator} {s₀ s₁ : TokenStream} {token : Token} (ho : Opens c.symbols c.stream s₀)
include ho

theorem evaluateNext_of_error {e : Error} (ht : next c.symbols s₀ = (.error e, s₁)) :
    c.evaluateNext = (.error e, ⟨s₁, c.symbols⟩) := by
  have h : outcome c.symbols c.stream = ((.error e, c.symbols), s₁) := by
    unfold outcome
    exact Evaluating.bind_of_error ((nextOfStatement_eq ho).trans ht)
  simp [evaluateNext, h]

theorem evaluateNext_of_quit (ht : next c.symbols s₀ = (.ok token, s₁)) (hq : token.isQuit = true) :
    c.evaluateNext = (.ok .quit, ⟨s₁, c.symbols⟩) := by
  have h : outcome c.symbols c.stream = ((.ok .quit, c.symbols), s₁) := by
    unfold outcome
    rw [Evaluating.bind_of_ok ((nextOfStatement_eq ho).trans ht)]
    simp only [hq, if_true]
    rfl
  simp [evaluateNext, h]

theorem evaluateNext_of_statement (ht : next c.symbols s₀ = (.ok token, s₁)) (hq : token.isQuit = false)
    {r : Except Error Binary64} {symbols' : SymbolTable} {s' : TokenStream}
    (hs : statement c.symbols (s₁.holding token) = ((r, symbols'), s')) :
    c.evaluateNext = (r.map .value, ⟨s', symbols'⟩) := by
  have h : outcome c.symbols c.stream = ((r.map .value, symbols'), s') := by
    unfold outcome
    rw [Evaluating.bind_of_ok ((nextOfStatement_eq ho).trans ht)]
    simp only [hq, Bool.false_eq_true, if_false]
    refine (Evaluating.bind_of_ok (putBack_eq_holding (pushedBack_of_next ht) token)).trans ?_
    exact Evaluating.map_eq Outcome.value hs
  simp [evaluateNext, h]

theorem evaluateNext_of_declare (ht : next c.symbols s₀ = (.ok (.keyword .declare), s₁))
    {r : Except Error Binary64} {symbols' : SymbolTable} {s' : TokenStream}
    (hs : declaration c.symbols s₁ = ((r, symbols'), s')) :
    c.evaluateNext = (r.map .value, ⟨s', symbols'⟩) := by
  refine evaluateNext_of_statement ho ht rfl ?_
  rw [statement_of_declare (next_holding (pushedBack_of_next ht) _), hs]

theorem evaluateNext_eq {r : Except Error Outcome} (h : Evaluates c.symbols s₀ r c') :
    c.evaluateNext = (r, c') := by
  cases h with
  | unread ht => exact evaluateNext_of_error ho ht
  | quit ht hq => exact evaluateNext_of_quit ho ht hq
  | @expression token s₁ r s' ht hq hd h =>
    have hk : next c.symbols (s₁.holding token) = next c.symbols s₀ := by
      rw [next_holding (pushedBack_of_next ht), ht]
    exact evaluateNext_of_statement ho ht hq (statement_of_expression (hk.trans ht) hd (h.congr hk))
  | name_unread hd ht =>
    exact evaluateNext_of_declare ho (Delivers.single_iff.mp hd) (declaration_of_error ht)
  | name_missing hd ht hn =>
    exact evaluateNext_of_declare ho (Delivers.single_iff.mp hd) (declaration_of_other ht hn)
  | equals_unread hd ht =>
    obtain ⟨s₁, hd, hn⟩ := hd.pair
    exact evaluateNext_of_declare ho hd (declaration_of_name_error hn ht)
  | equals_missing hd ht he =>
    obtain ⟨s₁, hd, hn⟩ := hd.pair
    exact evaluateNext_of_declare ho hd (declaration_of_name_other hn ht he)
  | value_fails hd h =>
    obtain ⟨s₁, s₂, hd, hn, he⟩ := hd.triple
    exact evaluateNext_of_declare ho hd (declaration_of_value_error hn he h)
  | redeclared hd h hv =>
    obtain ⟨s₁, s₂, hd, hn, he⟩ := hd.triple
    have hs := declaration_of_value hn he h
    rw [Evaluating.declare, hv] at hs
    exact evaluateNext_of_declare ho hd hs
  | declared hd h hv =>
    obtain ⟨s₁, s₂, hd, hn, he⟩ := hd.triple
    have hs := declaration_of_value hn he h
    rw [Evaluating.declare, hv] at hs
    exact evaluateNext_of_declare ho hd hs

end

theorem exists_reads (symbols : SymbolTable) (s : TokenStream) :
    ∃ r s', Reads symbols (.chain .sum) s r s' := ⟨_, _, expression_eq_iff.mp rfl⟩

theorem exists_evaluates_declaration {s s₁ : TokenStream} (hd : next symbols s = (.ok (.keyword .declare), s₁)) :
    ∃ r c', Evaluates symbols s r c' := by
  cases hn : next symbols s₁ with
  | mk answer s₂ =>
    have hd₁ : Delivers symbols s [.keyword .declare] s₁ := .single hd
    cases answer with
    | error e => exact ⟨_, _, .name_unread hd₁ hn⟩
    | ok token =>
      by_cases hi : ∃ name, token = .identifier name
      · obtain ⟨name, rfl⟩ := hi
        have hd₂ : Delivers symbols s [.keyword .declare, .identifier name] s₂ := .cons hd (.single hn)
        cases ht : next symbols s₂ with
        | mk answer s₃ =>
          cases answer with
          | error e => exact ⟨_, _, .equals_unread hd₂ ht⟩
          | ok token =>
            by_cases he : token = .operator .equals
            · subst he
              have hd₃ : Delivers symbols s [.keyword .declare, .identifier name, .operator .equals] s₃ :=
                .cons hd (.cons hn (.single ht))
              obtain ⟨r, s', h⟩ := exists_reads symbols s₃
              cases r with
              | error e => exact ⟨_, _, .value_fails hd₃ h⟩
              | ok value =>
                cases hv : symbols.declare name value with
                | error cause => exact ⟨_, _, .redeclared hd₃ h hv⟩
                | ok symbols' => exact ⟨_, _, .declared hd₃ h hv⟩
            · exact ⟨_, _, .equals_missing hd₂ ht he⟩
      · exact ⟨_, _, .name_missing hd₁ hn fun name he => hi ⟨name, he⟩⟩

theorem exists_evaluates (symbols : SymbolTable) (s : TokenStream) : ∃ r c', Evaluates symbols s r c' := by
  cases ht : next symbols s with
  | mk answer s₁ =>
    cases answer with
    | error e => exact ⟨_, _, .unread ht⟩
    | ok token =>
      by_cases hq : token.isQuit = true
      · exact ⟨_, _, .quit ht hq⟩
      · by_cases hd : token = .keyword .declare
        · subst hd
          exact exists_evaluates_declaration ht
        · obtain ⟨r, s', h⟩ := exists_reads symbols s
          exact ⟨_, _, .expression ht (by simpa using hq) hd h⟩

theorem evaluates_of_evaluateNext {c c' : Calculator} {s₀ : TokenStream} {r : Except Error Outcome}
    (ho : Opens c.symbols c.stream s₀) (h : c.evaluateNext = (r, c')) : Evaluates c.symbols s₀ r c' := by
  obtain ⟨r', c'', he⟩ := exists_evaluates c.symbols s₀
  rw [evaluateNext_eq ho he] at h
  cases h
  exact he

end Calculator

end DeskCalculator
