import DeskCalculator.Proofs.Grammar.Derivation
import DeskCalculator.Proofs.Stream.Deliveries

/-!
# What is read is a phrase

A part of the grammar that was read with success has taken the tokens of a phrase with the value it
came to. It may have put back the token after them, and then that token does not continue it.
-/

namespace DeskCalculator

open TokenStream Grammar

/-- The item does not continue the phrase. A primary may stand before anything, what is a chain or
goes on with one only before a token. -/
def Phrase.EndsBefore {α : Type} (p : Phrase α) (item : Except Error Token) : Prop :=
  p = .primary ∨ ∃ token, item = .ok token ∧
    ∀ k : Connective, p.takes k = true → token ≠ .operator k.operator

theorem Phrase.EndsBefore.ne {α : Type} {p : Phrase α} {item : Except Error Token}
    (h : p.EndsBefore item) {k : Connective} (hk : p.takes k = true) : item ≠ .ok (.operator k.operator) := by
  rcases h with rfl | ⟨token, rfl, hn⟩
  · cases hk
  · simpa using hn k hk

theorem Phrase.endsBefore_rest {α : Type} {c : Chain} {left : Expr α} {item : Except Error Token} :
    (rest c left).EndsBefore item ↔ (chain c : Phrase α).EndsBefore item := by
  simp [EndsBefore, takes_rest]

theorem Phrase.endsBefore_token {α : Type} {p : Phrase α} {token : Token}
    (h : ∀ k : Connective, token ≠ .operator k.operator) : p.EndsBefore (.ok token) :=
  Or.inr ⟨token, rfl, fun k _ => h k⟩

theorem Phrase.endsBefore_separator {α : Type} {p : Phrase α} {op : Operator} (h : op.separates = true) :
    p.EndsBefore (.ok (.operator op)) :=
  endsBefore_token (Connective.ne_of_separates h)

variable {symbols : SymbolTable}

/-- From the first stream to the second stand the tokens of a phrase with a value. -/
def Spans (symbols : SymbolTable) (p : Phrase Binary64) (e : Expr Binary64) (value : Binary64)
    (s : TokenStream) (ws : List Token) (s' : TokenStream) : Prop :=
  Derives (.tokens .number) p e ws ∧ e.evaluate .ok = .ok value ∧ p.EndsBefore (next symbols s').1 ∧
    Passes symbols s ws s'

/-- What there is to a part of the grammar that comes to a value. -/
def Sound (symbols : SymbolTable) : Part → TokenStream → Binary64 → TokenStream → Prop
  | .primary, s, value, s' => ∃ e ws, Spans symbols .primary e value s ws s'
  | .chain c, s, value, s' => ∃ e ws, Spans symbols (.chain c) e value s ws s'
  | .rest c x, s, value, s' => ∀ left, left.evaluate .ok = .ok x →
      (∀ k : Connective, (Phrase.operand c : Phrase Binary64).takes k = true →
        (next symbols s).1 ≠ .ok (.operator k.operator)) →
      ∃ e ws, Spans symbols (.rest c left) e value s ws s'
  | .argument op, s, value, s' => ∃ s₁, next symbols s = (.ok (.operator op), s₁) ∧
      ∃ e ws, Spans symbols (.chain .sum) e value s₁ ws s'

theorem Sound.operand {c : Chain} {s : TokenStream} {value : Binary64} {s' : TokenStream}
    (h : Sound symbols c.operand s value s') : ∃ e ws, Spans symbols (.operand c) e value s ws s' := by
  cases c <;> exact h

theorem Spans.primary {e : Expr Binary64} {value : Binary64} {s s' : TokenStream} {ws : List Token}
    (hd : Derives (.tokens .number) .primary e ws) (hv : e.evaluate .ok = .ok value)
    (h : Delivers symbols s ws s') : Spans symbols .primary e value s ws s' :=
  ⟨hd, hv, Or.inl rfl, .of_delivers h⟩

theorem sound_of_reads {part : Part} {s s' : TokenStream} {r : Except Error Binary64}
    (h : Reads symbols part s r s') : ∀ value, r = .ok value → Sound symbols part s value s' := by
  induction h with
  | chain_fails | rest_unread | rest_fails | rest_undefined | argument_fails | primary_unread
  | group_fails | root_fails | power_base_fails | power_exponent_fails | name | other =>
    intro value hr
    cases hr
  | @chain c s left s₁ r s' _ _ iho ihr =>
    intro value hr
    obtain ⟨e, ws, hd, hv, he, hs⟩ := (iho left rfl).operand
    obtain ⟨e', ws', hd', hv', he', hs'⟩ := ihr value hr e hv fun k hk => he.ne hk
    exact ⟨e', ws ++ ws', .chain hd hd', hv', Phrase.endsBefore_rest.mp he', hs.trans hs'⟩
  | @rest_ends c x s token s₁ ht hc =>
    intro value hr left hl hn
    cases hr
    have hk : next symbols (s₁.holding token) = next symbols s := by
      rw [next_holding (pushedBack_of_next ht), ht]
    refine ⟨left, [], .rest_nil, hl, Or.inr ⟨token, by rw [hk, ht], ?_⟩, s, .nil, hk⟩
    intro k hk'
    rw [Phrase.takes_rest, Phrase.takes_chain] at hk'
    rcases hk' with hk' | hk'
    · exact hc k hk'
    · simpa [ht] using hn k hk'
  | @rest_more k c x s s₁ right s₂ v r s' ht hc _ hv _ iho ihr =>
    intro value hr left hl _
    obtain ⟨e, ws, hd, he, hend, hs⟩ := (iho right rfl).operand
    have hb : (Expr.binary k left e).evaluate .ok = .ok v := (Expr.evaluate_binary k hl he).trans hv
    obtain ⟨e', ws', hd', hv', hend', hs'⟩ := ihr value hr _ hb fun k hk => hend.ne hk
    exact ⟨e', _, .rest_cons hc hd hd', hv', Phrase.endsBefore_rest.mpr (Phrase.endsBefore_rest.mp hend'),
      .cons ht (hs.trans hs')⟩
  | @argument op s s₁ r s' ho _ ih =>
    intro value hr
    exact ⟨s₁, next_of_expect ho, ih value hr⟩
  | @number s v s' ht =>
    intro value hr
    cases hr
    exact ⟨.leaf v, _, .primary (.leaf v) rfl (.single ht)⟩
  | @sign sign s s₁ r s' ht _ ih =>
    intro value hr
    cases r with
    | error e => cases hr
    | ok v =>
      cases hr
      obtain ⟨e, ws, hd, hv, _, hs⟩ := ih v rfl
      refine ⟨.sign sign e, _, .sign hd, ?_, Or.inl rfl, .cons ht hs⟩
      simp [Expr.evaluate, hv, Except.map]
  | @group s s₁ v s₂ r s' ht _ hc ih =>
    intro value hr
    subst hr
    obtain ⟨e, ws, hd, hv, _, hs⟩ := ih v rfl
    obtain ⟨hr, hp⟩ := of_close hc
    cases hr
    exact ⟨e, _, .primary (.group hd) hv (.cons ht (hs.closed hp))⟩
  | @root s s₁ v s₂ r s' ht _ hc ih =>
    intro value hr
    subst hr
    obtain ⟨sa, ho, e, ws, hd, hv, _, hs⟩ := ih v rfl
    obtain ⟨hr, hp⟩ := of_close hc
    refine ⟨.root e, _, .primary (.root hd) ?_ (.cons ht (.cons ho (hs.closed hp)))⟩
    rw [Expr.evaluate_root hv, hr]
  | @power s s₁ x s₂ y s₃ r s' ht _ _ hc ihb ihe =>
    intro value hr
    subst hr
    obtain ⟨sa, ho, base, ws, hd, hv, _, hs⟩ := ihb x rfl
    obtain ⟨sb, hcomma, exponent, ws', hd', hv', _, hs'⟩ := ihe y rfl
    obtain ⟨hr, hp⟩ := of_close hc
    refine ⟨.power base exponent, _, .primary (.power hd hd') ?_ (.cons ht (.cons ho ?_))⟩
    · rw [Expr.evaluate_power hv hv', hr]
    · have := Delivers.append_iff.mpr ⟨_, hs.closed hcomma, hs'.closed hp⟩
      simpa [Alphabet.tokens] using this

end DeskCalculator
