import DeskCalculator.Proofs.Calculator.DeclaredNames
import DeskCalculator.Proofs.Grammar.Viable

/-!
# Syntax errors blame the first wrong token

An evaluation that fails because a token is missing stops at the first token that no statement goes on with. What it
asks for would have done in its place.
-/

namespace DeskCalculator

open TokenStream

/-- The statements of the grammar. -/
inductive IsStatement : List Token → Prop where
  | expression {e ws} (h : Derives (.tokens .number) (.chain .sum) e ws) : IsStatement ws
  | declaration (name : String) {e ws} (h : Derives (.tokens .number) (.chain .sum) e ws) :
      IsStatement (.keyword .declare :: .identifier name :: .operator .equals :: ws)

/-- Some statement begins with the tokens. -/
def Viable (tokens : List Token) : Prop := ∃ rest, IsStatement (tokens ++ rest)

/-- Of the items the first ones were taken, and the last of these is the first that no statement goes on with. It is
delivered again if it is a terminator. -/
structure FirstWrong (items : Nat → Except Error Token) (cause : Cause) (taken : List Token) (offender : Token)
    (behind : Nat → Except Error Token) : Prop where
  items_taken : ∀ i (h : i < taken.length), items i = .ok taken[i]
  items_offender : items taken.length = .ok offender
  viable : Viable taken
  wrong : ¬ Viable (taken ++ [offender])
  incomplete : offender = .endOfInput → ¬ IsStatement taken
  named : ∃ wanted, cause.Wants wanted
  replaced : ∀ wanted, cause.Wants wanted → Viable (taken ++ [wanted])
  behind_eq : behind = fun i =>
    items ((if offender = .operator .equals then taken.length else taken.length + 1) + i)

def Language.statement : Language := ⟨IsStatement, Derives.Stops (.chain .sum : Phrase Binary64)⟩

variable {symbols : SymbolTable}

/-! ## Statements that fail -/

section
variable {s s₁ s₂ : TokenStream} {cause : Cause} {token : Token}

theorem IsStatement.of_declare {text behind rest : List Token} (h : IsStatement text)
    (he : text ++ behind = .keyword .declare :: rest) : ∃ name e ws, Derives (.tokens .number) (.chain .sum) e ws ∧
      .identifier name :: .operator .equals :: (ws ++ behind) = rest := by
  cases h with
  | expression hd =>
    rcases hd.opensPrimary with ⟨c, left, hp⟩ | ⟨first, text, rfl, hf⟩
    · cases hp
    · cases he
      cases hf
  | declaration name hd => exact ⟨name, _, _, hd, (List.cons.inj he).2⟩

theorem isStatement_declaration (name : String) :
    IsStatement [.keyword .declare, .identifier name, .operator .equals, .number default] :=
  .declaration name (derives_sum (.leaf default))

theorem blames_expression (ht : next symbols s = (.ok token, s₁)) (hd : token ≠ .keyword .declare)
    {s' : TokenStream} (h : (Phrase.language (.chain .sum)).Blames symbols s cause s') :
    Language.statement.Blames symbols s cause s' := by
  refine h.after (.of_delivers .nil) ?_ ?_
  · rintro text ⟨e, he⟩
    exact ⟨[], by simpa using .expression he⟩
  · rintro text behind first rest hs hb hn he
    cases hs with
    | expression h => exact ⟨text, behind, ⟨_, h⟩, hb, he⟩
    | declaration name _ =>
      cases he
      rw [ht] at hn
      cases hn
      exact absurd rfl hd

theorem blames_value {name : String} {s' : TokenStream}
    (hd : Delivers symbols s [.keyword .declare, .identifier name, .operator .equals] s₁)
    (h : (Phrase.language (.chain .sum)).Blames symbols s₁ cause s') :
    Language.statement.Blames symbols s cause s' := by
  refine h.after (.of_delivers hd) ?_ ?_
  · rintro text ⟨e, he⟩
    exact ⟨[], by simpa using .declaration name he⟩
  · rintro text behind first rest hs hb _ he
    obtain ⟨name', e, ws, hv, he'⟩ := hs.of_declare he
    exact ⟨ws, behind, ⟨e, hv⟩, hb, (List.cons.inj (List.cons.inj he').2).2⟩

theorem blames_name (hd : Delivers symbols s [.keyword .declare] s₁) (ht : next symbols s₁ = (.ok token, s₂))
    (hn : ∀ name, token ≠ .identifier name) :
    Language.statement.Blames symbols s .expectedName (s₂.abandoned token) := by
  refine ⟨[.keyword .declare], token, s₂, (Passes.of_delivers hd).closed ht, rfl, ⟨_, "", rfl⟩, ?_, ?_⟩
  · rintro _ ⟨name, rfl⟩
    exact ⟨_, isStatement_declaration name⟩
  · intro text behind rest hs _ he
    obtain ⟨name, e, ws, -, he'⟩ := IsStatement.of_declare hs he
    exact hn name (List.cons.inj he').1.symm

theorem blames_equals {name : String} (hd : Delivers symbols s [.keyword .declare, .identifier name] s₁)
    (ht : next symbols s₁ = (.ok token, s₂)) (he : token ≠ .operator .equals) :
    Language.statement.Blames symbols s (.expectedAssignment name) s₂ := by
  refine ⟨[.keyword .declare, .identifier name], token, s₂, (Passes.of_delivers hd).closed ht, ?_, ⟨_, rfl⟩, ?_, ?_⟩
  · rw [abandoned, if_neg he]
  · rintro _ rfl
    exact ⟨_, isStatement_declaration name⟩
  · intro text behind rest hs _ ht
    obtain ⟨name', e, ws, -, ht'⟩ := IsStatement.of_declare hs ht
    exact he (List.cons.inj (List.cons.inj ht').2).1.symm

theorem blames_of_evaluates {line : Nat} {c' : Calculator}
    (h : Evaluates symbols s (.error (.statement cause line)) c') (hc : cause.IsSyntax) :
    Language.statement.Blames symbols s cause c'.stream ∧ c'.symbols = symbols := by
  generalize hr : (Except.error (.statement cause line) : Except Error Outcome) = r at h
  cases h with
  | quit | declared => cases hr
  | unread ht | name_unread _ ht | equals_unread _ ht =>
    cases hr
    exact absurd hc (not_isSyntax_of_next ht)
  | @expression _ _ r _ ht _ hd h =>
    cases r with
    | ok value => cases hr
    | error e =>
      cases hr
      exact ⟨blames_expression ht hd (blames_of_reads h rfl hc), rfl⟩
  | name_missing hd ht hn =>
    cases hr
    exact ⟨blames_name hd ht hn, rfl⟩
  | equals_missing hd ht he =>
    cases hr
    exact ⟨blames_equals hd ht he, rfl⟩
  | value_fails hd h =>
    cases hr
    exact ⟨blames_value hd (blames_of_reads h rfl hc), rfl⟩
  | redeclared _ _ hv =>
    cases hr
    rw [SymbolTable.cause_of_declare hv] at hc
    exact hc.elim

end

/-! ## Evaluations that fail -/

/-- After the tokens and an offender were taken, what is delivered is what stands behind the tokens, with the offender
only if it is a terminator. -/
theorem deliveries_abandoned {s s₁ : TokenStream} {taken : List Token} {offender : Token}
    (h : Delivers symbols s (taken ++ [offender]) s₁) : (s₁.abandoned offender).deliveries symbols = fun i =>
      s.deliveries symbols ((if offender = .operator .equals then taken.length else taken.length + 1) + i) := by
  obtain ⟨s₂, htaken, hlast⟩ := Delivers.append_iff.mp h
  have hn := Delivers.single_iff.mp hlast
  funext i
  unfold abandoned
  split
  · rw [deliveries_congr ((next_holding (pushedBack_of_next hn) offender).trans hn.symm), htaken.deliveries_eq]
  · rw [h.deliveries_eq, List.length_append, List.length_singleton]

theorem firstWrong_of_rejects {s s₁ : TokenStream} {cause : Cause} {taken : List Token} {offender : Token}
    (hd : Delivers symbols s (taken ++ [offender]) s₁) (h : Language.statement.Rejects cause taken offender) :
    FirstWrong (s.deliveries symbols) cause taken offender ((s₁.abandoned offender).deliveries symbols) := by
  obtain ⟨hnamed, hwanted, hwrong⟩ := h
  have hitems := exists_delivers.mp ⟨s₁, hd⟩
  have hreplaced : ∀ wanted, cause.Wants wanted → Viable (taken ++ [wanted]) := by
    intro wanted hw
    obtain ⟨rest, hs⟩ := hwanted wanted hw
    refine ⟨rest, ?_⟩
    rw [List.append_assoc]
    exact hs
  refine ⟨?_, ?_, ?_, ?_, ?_, hnamed, hreplaced, deliveries_abandoned hd⟩
  · intro i hi
    rw [hitems i (by simp; omega), List.getElem_append_left hi]
  · rw [hitems taken.length (by simp), List.getElem_append_right (Nat.le_refl _)]
    simp
  · obtain ⟨wanted, hw⟩ := hnamed
    obtain ⟨rest, hs⟩ := hwanted wanted hw
    exact ⟨_, hs⟩
  · rintro ⟨rest, hs⟩
    exact hwrong _ [] rest hs (fun _ _ hh => by simp at hh) (by simp)
  · rintro rfl hs
    exact hwrong _ [.endOfInput] [] hs (fun _ _ hh => by simp at hh) rfl

theorem firstWrong_of_blames {s s' : TokenStream} {cause : Cause} (h : Language.statement.Blames symbols s cause s') :
    ∃ taken offender, FirstWrong (s.deliveries symbols) cause taken offender (s'.deliveries symbols) := by
  obtain ⟨taken, offender, s₁, hd, rfl, hr⟩ := h
  exact ⟨taken, offender, firstWrong_of_rejects hd hr⟩

namespace Calculator

/-- An evaluation that fails because a token is missing has stopped, behind the terminators that come first, at the
first token that no statement goes on with. -/
theorem evaluateNext_blames {c c' : Calculator} {cause : Cause} {line : Nat}
    (he : c.evaluateNext = (.error (.statement cause line), c')) (hc : cause.IsSyntax) :
    ∃ n taken offender, (∀ i < n, c.stream.deliveries c.symbols i = .ok (.operator .equals)) ∧
      c.stream.deliveries c.symbols n ≠ .ok (.operator .equals) ∧ c'.symbols = c.symbols ∧
      FirstWrong (fun i => c.stream.deliveries c.symbols (n + i)) cause taken offender
        (c'.stream.deliveries c'.symbols) := by
  obtain ⟨s₀, ho⟩ := exists_opens c.symbols c.stream
  obtain ⟨hb, hs⟩ := blames_of_evaluates (evaluates_of_evaluateNext ho he) hc
  obtain ⟨taken, offender, hw⟩ := firstWrong_of_blames hb
  obtain ⟨⟨n, hd⟩, hn⟩ := ho
  have hitems : s₀.deliveries c.symbols = fun i => c.stream.deliveries c.symbols (n + i) := by
    funext i
    rw [hd.deliveries_eq, List.length_replicate]
  refine ⟨n, taken, offender, ?_, ?_, hs, ?_⟩
  · intro i hi
    rw [exists_delivers.mp ⟨s₀, hd⟩ i (by simpa using hi), List.getElem_replicate]
  · have := congrFun hitems 0
    rw [Nat.add_zero] at this
    rw [← this]
    exact hn
  · rw [hs, ← hitems]
    exact hw

/-- The second argument of a power does not end before its terminator does. -/
theorem evaluateNext_blames_power :
    let c : Calculator := ⟨.ofSource ⟨["= pow(2, (1 + 3 =".toList], none⟩, .constants⟩
    c.evaluateNext.1 = .error (.statement (.expectedToken ')') 1) ∧
      ∃ n taken offender, (∀ i < n, c.stream.deliveries c.symbols i = .ok (.operator .equals)) ∧
        FirstWrong (fun i => c.stream.deliveries c.symbols (n + i)) (.expectedToken ')') taken offender
          (c.evaluateNext.2.stream.deliveries c.evaluateNext.2.symbols) := by
  intro c
  have he : c.evaluateNext.1 = .error (.statement (.expectedToken ')') 1) := by decide +kernel
  obtain ⟨n, taken, offender, hn, -, -, hw⟩ := evaluateNext_blames (Prod.ext he rfl) trivial
  exact ⟨he, n, taken, offender, hn, hw⟩

end Calculator

end DeskCalculator
