import DeskCalculator.Proofs.Grammar.Moves
import DeskCalculator.Proofs.Grammar.Soundness
import DeskCalculator.Proofs.Stream.Pieces

/-!
# The first wrong token

A reading that fails because a token is missing has taken tokens that a text of the grammar can begin with, and then
one that no such text goes on with. Whether a text goes on depends on what stands behind it as well, so each category
is taken together with that. `Language.Blames.after` puts tokens that were read before in front.
-/

namespace DeskCalculator

open TokenStream Grammar

/-- The cause names a token that is missing. -/
def Cause.IsSyntax : Cause → Prop
  | .expectedToken _ | .expectedPrimary | .expectedName | .expectedAssignment _ => True
  | _ => False

/-- The token is one of those that the cause asks for. -/
def Cause.Wants : Cause → Token → Prop
  | .expectedToken symbol, token => ∃ op : Operator, op.symbol = symbol ∧ token = .operator op
  | .expectedPrimary, token => ∃ value, token = .number value
  | .expectedName, token => ∃ name, token = .identifier name
  | .expectedAssignment _, token => token = .operator .equals
  | _, _ => False

theorem Cause.Arithmetic.not_isSyntax {cause : Cause} (h : cause.Arithmetic) : ¬ cause.IsSyntax := by
  cases h <;> exact id

theorem not_isSyntax_of_next {symbols : SymbolTable} {s s' : TokenStream} {cause : Cause} {line : Nat}
    (h : next symbols s = (.error (.statement cause line), s')) : ¬ cause.IsSyntax := by
  rcases of_next_error h with ⟨c, -, he⟩ | ⟨-, -, reason, -, he⟩
  · cases he
    exact id
  · cases he

/-! ## Languages -/

/-- Texts, and what may stand behind one without being a part of it. -/
structure Language where
  Text : List Token → Prop
  Stops : List Token → Prop

namespace Language

/-- A text can begin with the tokens that were taken and one that the cause asks for, but not with the offender behind
them, wherever the text ends. -/
structure Rejects (L : Language) (cause : Cause) (taken : List Token) (offender : Token) : Prop where
  named : ∃ wanted, cause.Wants wanted
  wanted : ∀ wanted, cause.Wants wanted → ∃ rest, L.Text (taken ++ wanted :: rest)
  wrong : ∀ text behind rest, L.Text text → L.Stops behind → text ++ behind ≠ taken ++ offender :: rest

/-- From the first stream to the second tokens were taken, the last of which was wrong. -/
def Blames (L : Language) (symbols : SymbolTable) (s : TokenStream) (cause : Cause) (s' : TokenStream) : Prop :=
  ∃ taken offender s₁, Delivers symbols s (taken ++ [offender]) s₁ ∧ s' = s₁.abandoned offender ∧
    L.Rejects cause taken offender

/-- What was taken in a language was taken in another one behind other tokens, if texts of the one are the insides of
texts of the other. -/
theorem Blames.after {symbols : SymbolTable} {L L' : Language} {s s₁ s' : TokenStream} {cause : Cause}
    {front : List Token} (h : L.Blames symbols s₁ cause s') (hp : Passes symbols s front s₁)
    (grow : ∀ text, L.Text text → ∃ tail, L'.Text (front ++ (text ++ tail)))
    (cut : ∀ text behind token rest, L'.Text text → L'.Stops behind → (next symbols s₁).1 = .ok token →
      text ++ behind = front ++ token :: rest →
      ∃ text' behind', L.Text text' ∧ L.Stops behind' ∧ text' ++ behind' = token :: rest) :
    L'.Blames symbols s cause s' := by
  obtain ⟨taken, offender, s₂, hd, rfl, hnamed, hwanted, hwrong⟩ := h
  obtain ⟨s₃, htaken, hlast⟩ := Delivers.append_iff.mp hd
  refine ⟨front ++ taken, offender, s₂, ?_, rfl, hnamed, ?_, ?_⟩
  · exact (hp.trans (.of_delivers htaken)).closed (Delivers.single_iff.mp hlast)
  · intro wanted hw
    obtain ⟨rest, ht⟩ := hwanted wanted hw
    obtain ⟨tail, ht'⟩ := grow _ ht
    exact ⟨rest ++ tail, by simpa using ht'⟩
  · intro text behind rest ht hb he
    obtain ⟨token, rest', hrest⟩ : ∃ token rest', taken ++ offender :: rest = token :: rest' ∧
        (next symbols s₁).1 = .ok token := by
      cases taken with
      | nil =>
        cases htaken
        exact ⟨offender, rest, rfl, by rw [Delivers.single_iff.mp hlast]⟩
      | cons token taken =>
        obtain ⟨s₄, hn, -⟩ := Delivers.cons_iff.mp htaken
        exact ⟨token, taken ++ offender :: rest, rfl, by rw [hn]⟩
    obtain ⟨text', behind', ht', hb', he'⟩ := cut text behind token rest' ht hb hrest.2
      (by rw [he, List.append_assoc, hrest.1])
    exact hwrong text' behind' rest ht' hb' (he'.trans hrest.1.symm)

/-- One operator, whatever stands behind it. -/
def only (op : Operator) : Language := ⟨(· = [.operator op]), fun _ => True⟩

/-- An expression behind an operator. -/
def argument (op : Operator) : Language where
  Text text := ∃ e ws, Derives (.tokens .number) (.chain .sum) e ws ∧ text = .operator op :: ws
  Stops := Derives.Stops (.chain .sum : Phrase Binary64)

end Language

def Phrase.language (p : Phrase Binary64) : Language where
  Text text := ∃ e, Derives (.tokens .number) p e text
  Stops := Derives.Stops p

/-! ## Texts taken apart -/

namespace Derives

variable {p : Phrase Binary64} {c : Chain} {e e' left left' : Expr Binary64} {ws ws' behind rest : List Token}

theorem opensPrimary (h : Derives (.tokens .number) p e ws) : (∃ c left, p = .rest c left) ∨
    ∃ token rest, ws = token :: rest ∧ token.opensPrimary = true := by
  induction h with
  | @chain c _ _ _ ws' _ _ iho _ =>
    rcases iho with ⟨c', left, hp⟩ | ⟨token, rest, rfl, ht⟩
    · cases c <;> cases hp
    · exact .inr ⟨token, rest ++ ws', rfl, ht⟩
  | rest_nil | rest_cons => exact .inl ⟨_, _, rfl⟩
  | @sign sign => exact .inr ⟨_, _, rfl, by cases sign <;> rfl⟩
  | _ => exact .inr ⟨_, _, rfl, rfl⟩

theorem stops_of_endsBefore {item : Except Error Token} {token : Token} (h : p.EndsBefore item)
    (hi : item = .ok token) (rest : List Token) : Stops p (token :: rest) := by
  intro k hk hh
  cases hh
  exact h.ne hk hi

theorem stops_primary (rest : List Token) : Stops (.primary : Phrase Binary64) rest := by
  intro k hk
  cases hk

/-- Where an expression stands first, what ends an expression there comes right behind it. -/
theorem eq_of_ended (h : Derives (.tokens .number) (.chain .sum) e ws)
    (h' : Derives (.tokens .number) (.chain .sum) e' ws') {op : Operator} (ho : op.separates = true)
    (hr : Stops (.chain .sum : Phrase Binary64) rest) (he : ws' ++ .operator op :: behind = ws ++ rest) :
    .operator op :: behind = rest := by
  obtain ⟨-, rfl⟩ := h'.unique h he (stops_separator ho behind) hr
  exact List.append_cancel_left he

/-- Where an operand stands first, the rest of the chain comes right behind it. -/
theorem eq_of_operand {ws₁ ws₂ : List Token} {x : Expr Binary64} (h : Derives (.tokens .number) (.operand c) left ws)
    (hr : Stops (.operand c : Phrase Binary64) rest) (ho : Derives (.tokens .number) (.operand c) left' ws₁)
    (hrest : Derives (.tokens .number) (.rest c x) e ws₂) (hb : Stops (.chain c : Phrase Binary64) behind)
    (he : (ws₁ ++ ws₂) ++ behind = ws ++ rest) : left' = left ∧ ws₂ ++ behind = rest := by
  rw [List.append_assoc] at he
  obtain ⟨rfl, rfl⟩ := ho.unique h he (stops_operand hrest hb) hr
  exact ⟨rfl, List.append_cancel_left he⟩

/-- In front of its connective a chain goes on with an operand. -/
theorem exists_operand {k : Connective} {text : List Token} (hc : k.chain = c)
    (h : Derives (.tokens .number) (.rest c left) e text) (hb : Stops (.chain c : Phrase Binary64) behind)
    (he : text ++ behind = .operator k.operator :: rest) : ∃ right ws₁ ws₂,
      Derives (.tokens .number) (.operand c) right ws₁ ∧
      Derives (.tokens .number) (.rest c (.binary k left right)) e ws₂ ∧ (ws₁ ++ ws₂) ++ behind = rest := by
  cases h with
  | rest_nil =>
    rw [List.nil_append] at he
    rw [he] at hb
    exact absurd hb (stops_connective hc)
  | @rest_cons k' _ _ right _ ws₁ ws₂ _ ho hrest =>
    simp only [Alphabet.tokens, List.cons_append, List.cons.injEq, Token.operator.injEq] at he
    obtain ⟨hk, he⟩ := he
    obtain rfl := Connective.operator_injective hk
    exact ⟨right, ws₁, ws₂, ho, hrest, he⟩

section
variable (h : Derives (.tokens .number) .primary e ws)
include h

theorem exists_signed {sign : Sign} (he : ws ++ behind = .operator sign.operator :: rest) :
    ∃ e' ws', Derives (.tokens .number) .primary e' ws' ∧ ws' ++ behind = rest := by
  cases h with
  | sign h' =>
    simp only [Alphabet.tokens, List.cons_append, List.cons.injEq] at he
    exact ⟨_, _, h', he.2⟩
  | group _ => cases sign <;> simp [Alphabet.tokens, Sign.operator] at he
  | _ => simp [Alphabet.tokens] at he

theorem exists_grouped (he : ws ++ behind = .operator .leftParen :: rest) :
    ∃ e' ws', Derives (.tokens .number) (.chain .sum) e' ws' ∧ ws' ++ .operator .rightParen :: behind = rest := by
  cases h with
  | group h' =>
    simp only [Alphabet.tokens, List.cons_append, List.append_assoc, List.nil_append, List.cons.injEq, true_and] at he
    exact ⟨_, _, h', he⟩
  | @sign sign => cases sign <;> simp [Alphabet.tokens, Sign.operator] at he
  | _ => simp [Alphabet.tokens] at he

theorem exists_rooted (he : ws ++ behind = .keyword .sqrt :: rest) : ∃ e' ws',
    Derives (.tokens .number) (.chain .sum) e' ws' ∧
      .operator .leftParen :: (ws' ++ .operator .rightParen :: behind) = rest := by
  cases h with
  | root h' =>
    simp only [Alphabet.tokens, List.cons_append, List.append_assoc, List.nil_append, List.cons.injEq, true_and] at he
    exact ⟨_, _, h', he⟩
  | _ => simp [Alphabet.tokens] at he

theorem exists_powered (he : ws ++ behind = .keyword .pow :: rest) : ∃ base ws₁ exponent ws₂,
    Derives (.tokens .number) (.chain .sum) base ws₁ ∧ Derives (.tokens .number) (.chain .sum) exponent ws₂ ∧
      .operator .leftParen :: (ws₁ ++ .operator .comma :: (ws₂ ++ .operator .rightParen :: behind)) = rest := by
  cases h with
  | power hb hx =>
    simp only [Alphabet.tokens, List.cons_append, List.append_assoc, List.nil_append, List.cons.injEq, true_and] at he
    exact ⟨_, _, _, _, hb, hx, he⟩
  | _ => simp [Alphabet.tokens] at he

end

end Derives

/-! ## Where a reading fails -/

section
variable {symbols : SymbolTable} {s s' : TokenStream} {cause : Cause} {line : Nat}

theorem blames_expect {op : Operator} (h : expect symbols op s = (.error (.statement cause line), s'))
    (hc : cause.IsSyntax) : (Language.only op).Blames symbols s cause s' := by
  cases hn : next symbols s with
  | mk answer s₁ =>
    cases answer with
    | error e =>
      rw [expect_of_error hn] at h
      cases h
      exact absurd hc (not_isSyntax_of_next hn)
    | ok token =>
      rw [expect_of_ok hn] at h
      split at h
      · cases h
      · next ho =>
        cases h
        refine ⟨[], token, s₁, .single hn, rfl, ⟨_, op, rfl, rfl⟩, ?_, ?_⟩
        · rintro _ ⟨op', hs, rfl⟩
          have hop : some op' = some op := by
            rw [← Operator.ofSymbol?_symbol, hs, Operator.ofSymbol?_symbol]
          cases hop
          exact ⟨[], rfl⟩
        · rintro _ behind rest rfl _ he
          cases he
          exact ho rfl

theorem blames_close {result : Except Cause Binary64} (ha : ∀ cause, result = .error cause → cause.Arithmetic)
    (h : close symbols result s = (.error (.statement cause line), s')) (hc : cause.IsSyntax) :
    (Language.only .rightParen).Blames symbols s cause s' := by
  cases result with
  | error cause =>
    cases h
    exact absurd hc (ha cause rfl).not_isSyntax
  | ok value =>
    cases hx : expect symbols .rightParen s with
    | mk answer s₁ =>
      rw [close_of_ok hx] at h
      cases answer with
      | error e =>
        cases h
        exact blames_expect hx hc
      | ok u => cases h

theorem blames_other {token : Token} (ht : next symbols s = (.ok token, s')) (ho : token.opensPrimary = false) :
    (Phrase.language .primary).Blames symbols s .expectedPrimary (s'.abandoned token) := by
  refine ⟨[], token, s', .single ht, rfl, ⟨.number default, default, rfl⟩, ?_, ?_⟩
  · rintro _ ⟨value, rfl⟩
    exact ⟨[], .leaf value, .leaf value⟩
  · rintro text behind rest ⟨e, hd⟩ _ he
    rcases hd.opensPrimary with ⟨c, left, hp⟩ | ⟨first, text, rfl, hf⟩
    · cases hp
    · cases he
      rw [ho] at hf
      cases hf

end

/-! ## What stands in front of a failure -/

section
variable {symbols : SymbolTable} {s s₁ s₂ s₃ s' : TokenStream} {cause : Cause} {c : Chain} {ws ws' : List Token}
  {left right : Expr Binary64} {x y : Binary64}

theorem blames_chain_of_operand (h : (Phrase.operand c).language.Blames symbols s cause s') :
    (Phrase.language (.chain c)).Blames symbols s cause s' := by
  refine h.after (.of_delivers .nil) ?_ ?_
  · rintro text ⟨e, hd⟩
    have hchain := Derives.chain hd .rest_nil
    exact ⟨[], e, hchain⟩
  · rintro text behind token rest ⟨e, hd⟩ hb _ he
    cases hd with
    | chain ho hrest =>
      rw [List.append_assoc] at he
      exact ⟨_, _, ⟨_, ho⟩, Derives.stops_operand hrest hb, he⟩

theorem blames_chain_of_rest (ho : Spans symbols (.operand c) left x s ws s₁)
    (h : (Phrase.language (.rest c left)).Blames symbols s₁ cause s') :
    (Phrase.language (.chain c)).Blames symbols s cause s' := by
  obtain ⟨hd, -, hend, hp⟩ := ho
  refine h.after hp ?_ ?_
  · rintro text ⟨e, hrest⟩
    exact ⟨[], e, by simpa using Derives.chain hd hrest⟩
  · rintro text behind token rest ⟨e, ht⟩ hb hn he
    cases ht with
    | chain ho' hrest =>
      obtain ⟨rfl, he⟩ := hd.eq_of_operand (Derives.stops_of_endsBefore hend hn rest) ho' hrest hb he
      exact ⟨_, _, ⟨e, hrest⟩, Derives.stops_rest.mpr hb, he⟩

section
variable {k : Connective} (ht : next symbols s = (.ok (.operator k.operator), s₁)) (hc : k.chain = c)
include ht hc

theorem blames_rest_of_operand (h : (Phrase.operand c).language.Blames symbols s₁ cause s') :
    (Phrase.language (.rest c left)).Blames symbols s cause s' := by
  refine h.after (.of_delivers (.single ht)) ?_ ?_
  · rintro text ⟨e, hd⟩
    have hrest : Derives (.tokens .number) (.rest c left) (.binary k left e) _ := .rest_cons hc hd .rest_nil
    exact ⟨[], _, hrest⟩
  · rintro text behind token rest ⟨e, hd⟩ hb _ he
    obtain ⟨right, ws₁, ws₂, ho, hrest, he⟩ := hd.exists_operand hc (Derives.stops_rest.mp hb) he
    rw [List.append_assoc] at he
    exact ⟨_, _, ⟨right, ho⟩, Derives.stops_operand hrest (Derives.stops_rest.mp hb), he⟩

theorem blames_rest_of_rest (ho : Spans symbols (.operand c) right y s₁ ws s₂)
    (h : (Phrase.language (.rest c (.binary k left right))).Blames symbols s₂ cause s') :
    (Phrase.language (.rest c left)).Blames symbols s cause s' := by
  obtain ⟨hd, -, hend, hp⟩ := ho
  refine h.after (.cons ht hp) ?_ ?_
  · rintro text ⟨e, hrest⟩
    have hmore := Derives.rest_cons hc hd hrest
    exact ⟨[], e, by rwa [List.append_nil]⟩
  · rintro text behind token rest ⟨e, htext⟩ hb hn he
    rw [List.cons_append] at he
    obtain ⟨right', ws₁, ws₂, ho', hrest, he⟩ := htext.exists_operand hc (Derives.stops_rest.mp hb) he
    obtain ⟨rfl, he⟩ := hd.eq_of_operand (Derives.stops_of_endsBefore hend hn rest) ho' hrest
      (Derives.stops_rest.mp hb) he
    exact ⟨_, _, ⟨e, hrest⟩, Derives.stops_rest.mpr (Derives.stops_rest.mp hb), he⟩

end

/-! Arguments and primaries. -/

theorem blames_argument_of_opening {op : Operator} (h : (Language.only op).Blames symbols s cause s') :
    (Language.argument op).Blames symbols s cause s' := by
  refine h.after (.of_delivers .nil) ?_ ?_
  · rintro _ rfl
    exact ⟨[.number default], _, _, derives_sum (.leaf default), rfl⟩
  · rintro text behind token rest ⟨e, ws, hd, rfl⟩ _ _ he
    exact ⟨[.operator op], ws ++ behind, rfl, trivial, he⟩

theorem blames_argument_of_expression {op : Operator} (ht : next symbols s = (.ok (.operator op), s₁))
    (h : (Phrase.language (.chain .sum)).Blames symbols s₁ cause s') :
    (Language.argument op).Blames symbols s cause s' := by
  refine h.after (.of_delivers (.single ht)) ?_ ?_
  · rintro text ⟨e, hd⟩
    exact ⟨[], e, text, hd, by simp⟩
  · rintro text behind token rest ⟨e, ws, hd, rfl⟩ hb _ he
    exact ⟨ws, behind, ⟨e, hd⟩, hb, (List.cons.inj he).2⟩

theorem blames_signed {sign : Sign} (ht : next symbols s = (.ok (.operator sign.operator), s₁))
    (h : (Phrase.language .primary).Blames symbols s₁ cause s') :
    (Phrase.language .primary).Blames symbols s cause s' := by
  refine h.after (.of_delivers (.single ht)) ?_ ?_
  · rintro text ⟨e, hd⟩
    exact ⟨[], _, by rw [List.append_nil]; exact .sign hd⟩
  · rintro text behind token rest ⟨e, hd⟩ _ _ he
    obtain ⟨e', ws', hd', he'⟩ := hd.exists_signed he
    exact ⟨ws', behind, ⟨e', hd'⟩, Derives.stops_primary behind, he'⟩

section
variable (ht : next symbols s = (.ok (.operator .leftParen), s₁))
include ht

theorem blames_group_of_expression (h : (Phrase.language (.chain .sum)).Blames symbols s₁ cause s') :
    (Phrase.language .primary).Blames symbols s cause s' := by
  refine h.after (.of_delivers (.single ht)) ?_ ?_
  · rintro text ⟨e, hd⟩
    exact ⟨[.operator .rightParen], e, .group hd⟩
  · rintro text behind token rest ⟨e, hd⟩ _ _ he
    obtain ⟨e', ws', hd', he'⟩ := hd.exists_grouped he
    exact ⟨ws', _, ⟨e', hd'⟩, Derives.stops_separator rfl behind, he'⟩

theorem blames_group_of_closing (he : Spans symbols (.chain .sum) left x s₁ ws s₂)
    (h : (Language.only .rightParen).Blames symbols s₂ cause s') :
    (Phrase.language .primary).Blames symbols s cause s' := by
  obtain ⟨hd, -, hend, hp⟩ := he
  refine h.after (.cons ht hp) ?_ ?_
  · rintro _ rfl
    exact ⟨[], _, .group hd⟩
  · rintro text behind token rest ⟨e, htext⟩ _ hn he
    obtain ⟨e', ws', hd', he'⟩ := htext.exists_grouped he
    have hclose := hd.eq_of_ended hd' rfl (Derives.stops_of_endsBefore hend hn rest) he'
    exact ⟨[.operator .rightParen], behind, rfl, trivial, hclose⟩

end

section
variable (ht : next symbols s = (.ok (.keyword .sqrt), s₁))
include ht

theorem blames_root_of_argument (h : (Language.argument .leftParen).Blames symbols s₁ cause s') :
    (Phrase.language .primary).Blames symbols s cause s' := by
  refine h.after (.of_delivers (.single ht)) ?_ ?_
  · rintro _ ⟨e, ws, hd, rfl⟩
    exact ⟨[.operator .rightParen], _, .root hd⟩
  · rintro text behind token rest ⟨e, hd⟩ _ _ he
    obtain ⟨e', ws', hd', he'⟩ := hd.exists_rooted he
    exact ⟨_, _, ⟨e', ws', hd', rfl⟩, Derives.stops_separator rfl behind, he'⟩

theorem blames_root_of_closing (ho : next symbols s₁ = (.ok (.operator .leftParen), s₂))
    (he : Spans symbols (.chain .sum) left x s₂ ws s₃) (h : (Language.only .rightParen).Blames symbols s₃ cause s') :
    (Phrase.language .primary).Blames symbols s cause s' := by
  obtain ⟨hd, -, hend, hp⟩ := he
  refine h.after (.cons ht (.cons ho hp)) ?_ ?_
  · rintro _ rfl
    exact ⟨[], _, .root hd⟩
  · rintro text behind token rest ⟨e, htext⟩ _ hn he
    obtain ⟨e', ws', hd', he'⟩ := htext.exists_rooted he
    have hclose := hd.eq_of_ended hd' rfl (Derives.stops_of_endsBefore hend hn rest) (List.cons.inj he').2
    exact ⟨[.operator .rightParen], behind, rfl, trivial, hclose⟩

end

section
variable (ht : next symbols s = (.ok (.keyword .pow), s₁))
include ht

theorem blames_power_of_base (h : (Language.argument .leftParen).Blames symbols s₁ cause s') :
    (Phrase.language .primary).Blames symbols s cause s' := by
  refine h.after (.of_delivers (.single ht)) ?_ ?_
  · rintro _ ⟨e, ws, hd, rfl⟩
    exact ⟨[.operator .comma, .number default, .operator .rightParen], _, .power hd (derives_sum (.leaf default))⟩
  · rintro text behind token rest ⟨e, hd⟩ _ _ he
    obtain ⟨base, ws₁, exponent, ws₂, hb, -, he'⟩ := hd.exists_powered he
    exact ⟨_, _, ⟨base, ws₁, hb, rfl⟩, Derives.stops_separator rfl _, he'⟩

variable (ho : next symbols s₁ = (.ok (.operator .leftParen), s₂)) (hb : Spans symbols (.chain .sum) left x s₂ ws s₃)
include ho hb

theorem blames_power_of_exponent (h : (Language.argument .comma).Blames symbols s₃ cause s') :
    (Phrase.language .primary).Blames symbols s cause s' := by
  obtain ⟨hd, -, hend, hp⟩ := hb
  refine h.after (.cons ht (.cons ho hp)) ?_ ?_
  · rintro _ ⟨e, ws', hd', rfl⟩
    have hpower := Derives.power hd hd'
    exact ⟨[.operator .rightParen], _, hpower⟩
  · rintro text behind token rest ⟨e, htext⟩ _ hn he
    obtain ⟨base, ws₁, exponent, ws₂, hb', hx', he'⟩ := htext.exists_powered he
    have hcomma := hd.eq_of_ended hb' rfl (Derives.stops_of_endsBefore hend hn rest) (List.cons.inj he').2
    exact ⟨_, _, ⟨exponent, ws₂, hx', rfl⟩, Derives.stops_separator rfl behind, hcomma⟩

theorem blames_power_of_closing {s₄ s₅ : TokenStream} (hcomma : next symbols s₃ = (.ok (.operator .comma), s₄))
    (hx : Spans symbols (.chain .sum) right y s₄ ws' s₅)
    (h : (Language.only .rightParen).Blames symbols s₅ cause s') :
    (Phrase.language .primary).Blames symbols s cause s' := by
  obtain ⟨hdb, -, hendb, hpb⟩ := hb
  obtain ⟨hdx, -, hendx, hpx⟩ := hx
  refine h.after (.cons ht (.cons ho (hpb.trans (.cons hcomma hpx)))) ?_ ?_
  · rintro _ rfl
    have hpower : Derives (.tokens .number) .primary (.power left right) (.keyword .pow :: .operator .leftParen ::
        (ws ++ .operator .comma :: (ws' ++ [.operator .rightParen]))) := .power hdb hdx
    exact ⟨[], _, by simpa using hpower⟩
  · rintro text behind token rest ⟨e, htext⟩ _ hn he
    obtain ⟨base, ws₁, exponent, ws₂, hb', hx', he'⟩ := htext.exists_powered he
    rw [List.append_eq, List.cons_append, List.cons.injEq, List.append_assoc] at he'
    have hbehind := hdb.eq_of_ended hb' rfl (Derives.stops_separator rfl _) he'.2
    have hclose := hdx.eq_of_ended hx' rfl (Derives.stops_of_endsBefore hendx hn rest)
      (List.cons.inj hbehind).2
    exact ⟨[.operator .rightParen], behind, rfl, trivial, hclose⟩

end

end

/-! ## Parts of the grammar -/

def Part.Blames (symbols : SymbolTable) : Part → TokenStream → Cause → TokenStream → Prop
  | .primary, s, cause, s' => (Phrase.language .primary).Blames symbols s cause s'
  | .chain c, s, cause, s' => (Phrase.language (.chain c)).Blames symbols s cause s'
  | .rest c _, s, cause, s' => ∀ left, (Phrase.language (.rest c left)).Blames symbols s cause s'
  | .argument op, s, cause, s' => (Language.argument op).Blames symbols s cause s'

theorem Part.Blames.operand {symbols : SymbolTable} {c : Chain} {s s' : TokenStream} {cause : Cause}
    (h : c.operand.Blames symbols s cause s') : (Phrase.operand c).language.Blames symbols s cause s' := by
  cases c <;> exact h

theorem blames_of_reads {symbols : SymbolTable} {part : Part} {s s' : TokenStream} {r : Except Error Binary64}
    (h : Reads symbols part s r s') : ∀ {cause : Cause} {line : Nat}, r = .error (.statement cause line) →
      cause.IsSyntax → part.Blames symbols s cause s' := by
  induction h with
  | rest_ends | number => intro _ _ hr _; cases hr
  | rest_unread ht | primary_unread ht =>
    intro _ _ hr hc
    cases hr
    exact absurd hc (not_isSyntax_of_next ht)
  | @rest_undefined k _ _ _ _ _ _ _ _ _ _ hv =>
    intro _ _ hr hc
    cases hr
    exact absurd hc (k.arithmetic_of_apply hv).not_isSyntax
  | name =>
    intro _ _ hr hc
    cases hr
    exact hc.elim
  | other ht ho =>
    intro _ _ hr _
    cases hr
    exact blames_other ht ho
  | chain_fails _ ih =>
    intro _ _ hr hc
    exact blames_chain_of_operand (ih hr hc).operand
  | chain ho _ _ ih =>
    intro _ _ hr hc
    obtain ⟨e, ws, hs⟩ := (sound_of_reads ho _ rfl).operand
    exact blames_chain_of_rest hs (ih hr hc e)
  | rest_fails ht hk _ ih =>
    intro _ _ hr hc left
    exact blames_rest_of_operand ht hk (ih hr hc).operand
  | rest_more ht hk ho _ _ _ ih =>
    intro _ _ hr hc left
    obtain ⟨e, ws, hs⟩ := (sound_of_reads ho _ rfl).operand
    exact blames_rest_of_rest ht hk hs (ih hr hc _)
  | argument_fails ho =>
    intro _ _ hr hc
    cases hr
    exact blames_argument_of_opening (blames_expect ho hc)
  | argument ho _ ih =>
    intro _ _ hr hc
    exact blames_argument_of_expression (next_of_expect ho) (ih hr hc)
  | @sign sign _ _ r _ ht _ ih =>
    intro _ _ hr hc
    cases r with
    | ok v => cases hr
    | error e => exact blames_signed ht (ih hr hc)
  | group_fails ht _ ih =>
    intro _ _ hr hc
    exact blames_group_of_expression ht (ih hr hc)
  | group ht he hclose _ =>
    intro _ _ hr hc
    subst hr
    obtain ⟨e, ws, hs⟩ := sound_of_reads he _ rfl
    exact blames_group_of_closing ht hs (blames_close (fun _ ha => by cases ha) hclose hc)
  | root_fails ht _ ih =>
    intro _ _ hr hc
    exact blames_root_of_argument ht (ih hr hc)
  | root ht he hclose _ =>
    intro _ _ hr hc
    subst hr
    obtain ⟨s₁, ho, e, ws, hs⟩ := sound_of_reads he _ rfl
    exact blames_root_of_closing ht ho hs (blames_close (fun _ => Evaluation.arithmetic_of_squareRoot) hclose hc)
  | power_base_fails ht _ ih =>
    intro _ _ hr hc
    exact blames_power_of_base ht (ih hr hc)
  | power_exponent_fails ht hb _ _ ih =>
    intro _ _ hr hc
    obtain ⟨s₁, ho, e, ws, hs⟩ := sound_of_reads hb _ rfl
    exact blames_power_of_exponent ht ho hs (ih hr hc)
  | power ht hb hx hclose _ _ =>
    intro _ _ hr hc
    subst hr
    obtain ⟨s₁, ho, e, ws, hs⟩ := sound_of_reads hb _ rfl
    obtain ⟨s₂, hcomma, e', ws', hs'⟩ := sound_of_reads hx _ rfl
    exact blames_power_of_closing ht ho hs hcomma hs'
      (blames_close (fun _ => Evaluation.arithmetic_of_power) hclose hc)

end DeskCalculator
