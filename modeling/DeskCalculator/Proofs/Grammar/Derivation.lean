import DeskCalculator.Proofs.Grammar.Rules

/-!
# Trees and the symbols they are written with

`Derives` is the grammar without streams and values. Its trees keep no parentheses; a chain is a
tree that leans to the left. The tokens of a phrase determine where it ends and its tree
(`Derives.unique`).
-/

namespace DeskCalculator

inductive Expr (α : Type) where
  | leaf (a : α)
  | sign (sign : Sign) (operand : Expr α)
  | binary (k : Connective) (left right : Expr α)
  | power (base exponent : Expr α)
  | root (operand : Expr α)

/-- The value of an expression, operands first and from left to right, or the first reason that
there is none. -/
def Expr.evaluate {α : Type} (value : α → Except Cause Binary64) : Expr α → Except Cause Binary64
  | .leaf a => value a
  | .sign s e => (e.evaluate value).map s.apply
  | .binary k left right => do
    let x ← left.evaluate value
    let y ← right.evaluate value
    k.apply x y
  | .power base exponent => do
    let x ← base.evaluate value
    let y ← exponent.evaluate value
    Evaluation.power x y
  | .root e => do
    let x ← e.evaluate value
    Evaluation.squareRoot x

namespace Expr

variable {α : Type} {value : α → Except Cause Binary64} {e e' : Expr α} {x y : Binary64} {cause : Cause}

theorem evaluate_binary (k : Connective) (h : e.evaluate value = .ok x) (h' : e'.evaluate value = .ok y) :
    (binary k e e').evaluate value = k.apply x y := by
  simp [evaluate, h, h', bind, Except.bind]

theorem evaluate_binary_left (k : Connective) (e' : Expr α) (h : e.evaluate value = .error cause) :
    (binary k e e').evaluate value = .error cause := by
  simp [evaluate, h, bind, Except.bind]

theorem evaluate_binary_right (k : Connective) (h : e.evaluate value = .ok x)
    (h' : e'.evaluate value = .error cause) : (binary k e e').evaluate value = .error cause := by
  simp [evaluate, h, h', bind, Except.bind]

theorem evaluate_power (h : e.evaluate value = .ok x) (h' : e'.evaluate value = .ok y) :
    (power e e').evaluate value = Evaluation.power x y := by
  simp [evaluate, h, h', bind, Except.bind]

theorem evaluate_power_base (e' : Expr α) (h : e.evaluate value = .error cause) :
    (power e e').evaluate value = .error cause := by
  simp [evaluate, h, bind, Except.bind]

theorem evaluate_power_exponent (h : e.evaluate value = .ok x) (h' : e'.evaluate value = .error cause) :
    (power e e').evaluate value = .error cause := by
  simp [evaluate, h, h', bind, Except.bind]

theorem evaluate_root (h : e.evaluate value = .ok x) :
    (root e).evaluate value = Evaluation.squareRoot x := by
  simp [evaluate, h, bind, Except.bind]

theorem evaluate_root_operand (h : e.evaluate value = .error cause) :
    (root e).evaluate value = .error cause := by
  simp [evaluate, h, bind, Except.bind]

end Expr

/-- What leaves, operators and the names of functions are written as. -/
structure Alphabet (α τ : Type) where
  leaf : α → τ
  operator : Operator → τ
  keyword : Keyword → τ

def Alphabet.map {α τ σ : Type} (A : Alphabet α τ) (f : τ → σ) : Alphabet α σ :=
  ⟨f ∘ A.leaf, f ∘ A.operator, f ∘ A.keyword⟩

/-- The categories of the grammar; `rest` is what a chain goes on with. -/
inductive Phrase (α : Type) where
  | primary
  | chain (c : Chain)
  | rest (c : Chain) (left : Expr α)

namespace Phrase

variable {α : Type}

def operand : Chain → Phrase α
  | .sum => .chain .product
  | .product => .primary

def takes : Phrase α → Connective → Bool
  | .primary, _ => false
  | .chain .sum, _ | .rest .sum _, _ => true
  | .chain .product, k | .rest .product _, k => k.chain = .product

theorem takes_rest (c : Chain) (left : Expr α) (k : Connective) :
    (rest c left).takes k = (chain c : Phrase α).takes k := by
  cases c <;> rfl

theorem takes_chain (c : Chain) (k : Connective) :
    (chain c : Phrase α).takes k = true ↔ k.chain = c ∨ (operand c : Phrase α).takes k = true := by
  cases c <;> cases k <;> simp [takes, operand, Connective.chain]

theorem not_takes_operand {c : Chain} {k : Connective} (h : k.chain = c) :
    (operand c : Phrase α).takes k = false := by
  subst h
  cases k <;> rfl

end Phrase

/-- The grammar: which trees are written with which symbols. -/
inductive Derives {α τ : Type} (A : Alphabet α τ) : Phrase α → Expr α → List τ → Prop where
  | chain {c left e ws ws'} (operand : Derives A (.operand c) left ws)
      (rest : Derives A (.rest c left) e ws') : Derives A (.chain c) e (ws ++ ws')
  | rest_nil {c left} : Derives A (.rest c left) left []
  | rest_cons {k : Connective} {c left right e ws ws'} (hc : k.chain = c)
      (operand : Derives A (.operand c) right ws)
      (rest : Derives A (.rest c (.binary k left right)) e ws') :
      Derives A (.rest c left) e (A.operator k.operator :: (ws ++ ws'))
  | leaf (a : α) : Derives A .primary (.leaf a) [A.leaf a]
  | sign {sign : Sign} {e ws} (operand : Derives A .primary e ws) :
      Derives A .primary (.sign sign e) (A.operator sign.operator :: ws)
  | group {e ws} (inner : Derives A (.chain .sum) e ws) :
      Derives A .primary e (A.operator .leftParen :: (ws ++ [A.operator .rightParen]))
  | power {base exponent ws ws'} (hb : Derives A (.chain .sum) base ws)
      (he : Derives A (.chain .sum) exponent ws') :
      Derives A .primary (.power base exponent) (A.keyword .pow :: A.operator .leftParen ::
        (ws ++ A.operator .comma :: (ws' ++ [A.operator .rightParen])))
  | root {e ws} (inner : Derives A (.chain .sum) e ws) :
      Derives A .primary (.root e)
        (A.keyword .sqrt :: A.operator .leftParen :: (ws ++ [A.operator .rightParen]))

def Alphabet.tokens {α : Type} (leaf : α → Token) : Alphabet α Token := ⟨leaf, .operator, .keyword⟩

section
variable {α τ : Type} {A : Alphabet α τ} {e : Expr α} {ws : List τ}

theorem derives_product (h : Derives A .primary e ws) : Derives A (.chain .product) e ws := by
  have := Derives.chain (c := .product) h .rest_nil
  rwa [List.append_nil] at this

theorem derives_sum (h : Derives A .primary e ws) : Derives A (.chain .sum) e ws := by
  have := Derives.chain (c := .sum) (derives_product h) .rest_nil
  rwa [List.append_nil] at this

end

namespace Derives

section
variable {α τ σ : Type} {A : Alphabet α τ} {p : Phrase α} {e : Expr α} {ws : List τ}

theorem map (f : τ → σ) (h : Derives A p e ws) : Derives (A.map f) p e (ws.map f) := by
  induction h with
  | chain _ _ iho ihr => rw [List.map_append]; exact .chain iho ihr
  | rest_nil => exact .rest_nil
  | rest_cons hc _ _ iho ihr =>
    rw [List.map_cons, List.map_append]
    exact .rest_cons (A := A.map f) hc iho ihr
  | leaf a => exact .leaf (A := A.map f) a
  | sign _ ih => exact .sign (A := A.map f) ih
  | group _ ih =>
    rw [List.map_cons, List.map_append]
    exact .group (A := A.map f) ih
  | power _ _ ihb ihe =>
    simp only [List.map_cons, List.map_append, List.map_nil]
    exact .power (A := A.map f) ihb ihe
  | root _ ih =>
    simp only [List.map_cons, List.map_append, List.map_nil]
    exact .root (A := A.map f) ih

end

/-! ## A text has one tree -/

/-- The phrase does not go on with the tokens. -/
def Stops {α : Type} (p : Phrase α) (tokens : List Token) : Prop :=
  ∀ k : Connective, p.takes k = true → tokens.head? ≠ some (.operator k.operator)

theorem stops_separator {α : Type} {p : Phrase α} {op : Operator} (h : op.separates = true)
    (tokens : List Token) : Stops p (.operator op :: tokens) := by
  intro k _ hh
  exact Connective.ne_of_separates h k (Option.some.inj hh)

theorem stops_rest {α : Type} {c : Chain} {left : Expr α} {tokens : List Token} :
    Stops (.rest c left) tokens ↔ Stops (.chain c : Phrase α) tokens := by
  simp [Stops, Phrase.takes_rest]

theorem stops_operand {c : Chain} {left e : Expr Binary64} {ws r : List Token}
    (h : Derives (.tokens .number) (.rest c left) e ws) (hr : Stops (.chain c : Phrase Binary64) r) :
    Stops (.operand c : Phrase Binary64) (ws ++ r) := by
  intro k hk hh
  cases h with
  | rest_nil => exact hr k ((Phrase.takes_chain c k).mpr (Or.inr hk)) hh
  | @rest_cons k' _ _ _ _ _ _ hc _ _ =>
    have he : k'.operator = k.operator := by simpa [Alphabet.tokens] using hh
    rw [Connective.operator_injective he] at hc
    rw [Phrase.not_takes_operand hc] at hk
    cases hk

theorem stops_connective {α : Type} {c : Chain} {k : Connective} (hc : k.chain = c) {ws : List Token} :
    ¬ Stops (.chain c : Phrase α) (.operator k.operator :: ws) := by
  intro h
  exact h k ((Phrase.takes_chain c k).mpr (Or.inl hc)) rfl

theorem unique {p : Phrase Binary64} {e : Expr Binary64} {ws : List Token} (h : Derives (.tokens .number) p e ws) :
    ∀ {e' ws' r r'}, Derives (.tokens .number) p e' ws' → ws ++ r = ws' ++ r' → Stops p r → Stops p r' →
      e = e' ∧ ws = ws' := by
  -- The two texts of an operand may stand before different rests of a chain, so the tokens behind the
  -- phrase are a part of what is compared.
  induction h with
  | chain _ hrest iho ihr =>
    intro e' ws' r r' h' hw hr hr'
    cases h' with
    | chain ho' hrest' =>
      rw [List.append_assoc, List.append_assoc] at hw
      obtain ⟨rfl, rfl⟩ := iho ho' hw (stops_operand hrest hr) (stops_operand hrest' hr')
      obtain ⟨rfl, rfl⟩ := ihr hrest' (List.append_cancel_left hw) (stops_rest.mpr hr) (stops_rest.mpr hr')
      exact ⟨rfl, rfl⟩
  | rest_nil =>
    intro e' ws' r r' h' hw hr hr'
    cases h' with
    | rest_nil => exact ⟨rfl, rfl⟩
    | rest_cons hc _ _ =>
      rw [List.nil_append] at hw
      rw [hw, stops_rest] at hr
      exact absurd hr (stops_connective hc)
  | @rest_cons k _ _ _ _ _ _ hc _ hrest iho ihr =>
    intro e' ws' r r' h' hw hr hr'
    cases h' with
    | rest_nil =>
      rw [List.nil_append] at hw
      rw [← hw, stops_rest] at hr'
      exact absurd hr' (stops_connective hc)
    | @rest_cons k' _ _ _ _ _ _ _ ho' hrest' =>
      simp only [Alphabet.tokens, List.cons_append, List.append_assoc, List.cons.injEq,
        Token.operator.injEq] at hw
      obtain ⟨hk, hw⟩ := hw
      cases Connective.operator_injective hk
      rw [stops_rest] at hr hr'
      obtain ⟨rfl, rfl⟩ := iho ho' hw (stops_operand hrest hr) (stops_operand hrest' hr')
      obtain ⟨rfl, rfl⟩ := ihr hrest' (List.append_cancel_left hw) (stops_rest.mpr hr) (stops_rest.mpr hr')
      exact ⟨rfl, rfl⟩
  | leaf a =>
    intro e' ws' r r' h' hw _ _
    cases h' <;> simp [Alphabet.tokens] at hw
    obtain ⟨rfl, rfl⟩ := hw
    exact ⟨rfl, rfl⟩
  | @sign sign _ _ _ ih =>
    intro e' ws' r r' h' hw hr hr'
    cases h' with
    | @sign sign' _ _ h' =>
      simp only [Alphabet.tokens, List.cons_append, List.cons.injEq, Token.operator.injEq] at hw
      obtain ⟨hs, hw⟩ := hw
      obtain ⟨rfl, rfl⟩ := ih h' hw hr hr'
      have : sign = sign' := by cases sign <;> cases sign' <;> first | rfl | cases hs
      exact ⟨by rw [this], by rw [this]⟩
    | group _ => cases sign <;> simp [Alphabet.tokens, Sign.operator] at hw
    | _ => simp [Alphabet.tokens] at hw
  | group _ ih =>
    intro e' ws' r r' h' hw _ _
    cases h' with
    | group h' =>
      simp only [List.cons_append, List.append_assoc, List.cons.injEq, true_and] at hw
      obtain ⟨rfl, rfl⟩ := ih h' hw (stops_separator rfl r) (stops_separator rfl r')
      exact ⟨rfl, rfl⟩
    | @sign sign _ _ _ => cases sign <;> simp [Alphabet.tokens, Sign.operator] at hw
    | _ => simp [Alphabet.tokens] at hw
  | power _ _ ihb ihe =>
    intro e' ws' r r' h' hw _ _
    cases h' with
    | power hb' he' =>
      simp only [List.cons_append, List.append_assoc, List.cons.injEq, true_and] at hw
      obtain ⟨rfl, rfl⟩ := ihb hb' hw (stops_separator rfl _) (stops_separator rfl _)
      have hw := List.append_cancel_left hw
      simp only [List.cons.injEq, true_and] at hw
      obtain ⟨rfl, rfl⟩ := ihe he' hw (stops_separator rfl r) (stops_separator rfl r')
      exact ⟨rfl, rfl⟩
    | _ => simp [Alphabet.tokens] at hw
  | root _ ih =>
    intro e' ws' r r' h' hw _ _
    cases h' with
    | root h' =>
      simp only [List.cons_append, List.append_assoc, List.cons.injEq, true_and] at hw
      obtain ⟨rfl, rfl⟩ := ih h' hw (stops_separator rfl r) (stops_separator rfl r')
      exact ⟨rfl, rfl⟩
    | _ => simp [Alphabet.tokens] at hw

end Derives

end DeskCalculator
