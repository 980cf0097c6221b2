import DeskCalculator.Proofs.Grammar.Adequacy
import DeskCalculator.Proofs.Grammar.Completeness
import DeskCalculator.Proofs.Grammar.Meaning

/-!
# Reading an expression accepts the grammar

The functions that read an expression and a primary return a value exactly where the grammar has a
phrase with that value, and leave exactly the items behind it.
-/

namespace DeskCalculator

open TokenStream Grammar

/-- The first of the items are the tokens that a tree is written with, and the item after them does
not continue it. -/
def Parsed (p : Phrase Binary64) (items : Nat → Except Error Token) (tokens : List Token)
    (tree : Expr Binary64) : Prop :=
  Derives (.tokens .number) p tree tokens ∧ (∀ i (h : i < tokens.length), items i = .ok tokens[i]) ∧
    p.EndsBefore (items tokens.length)

/-- An action reads the phrases of a category from a stream: it comes to a value exactly where one
with that value comes first, there is one way only to find it there, and what is delivered afterwards
is what stands behind it. -/
structure Accepts (symbols : SymbolTable) (s : TokenStream) (p : Phrase Binary64) (action : Reading Binary64) :
    Prop where
  exactly : ∀ value, (∃ s', action s = (.ok value, s')) ↔
    ∃ tokens tree, Parsed p (s.deliveries symbols) tokens tree ∧ tree.HasValue value
  unique : ∀ tokens tree tokens' tree', Parsed p (s.deliveries symbols) tokens tree →
    Parsed p (s.deliveries symbols) tokens' tree' → tokens = tokens' ∧ tree = tree'
  behind : ∀ value s' tokens tree, action s = (.ok value, s') →
    Parsed p (s.deliveries symbols) tokens tree →
    s'.deliveries symbols = fun k => s.deliveries symbols (tokens.length + k)

variable {symbols : SymbolTable}

/-! ## One way to find a phrase -/

theorem parsed_unique_of_le {p : Phrase Binary64} {items : Nat → Except Error Token}
    {tokens tokens' : List Token} {tree tree' : Expr Binary64} (h : Parsed p items tokens tree)
    (h' : Parsed p items tokens' tree') (hle : tokens.length ≤ tokens'.length) :
    tokens = tokens' ∧ tree = tree' := by
  obtain ⟨hd, hi, he⟩ := h
  obtain ⟨hd', hi', -⟩ := h'
  have ht : tokens = tokens'.take tokens.length := by
    refine List.ext_getElem (by simp [hle]) ?_
    intro i h₁ h₂
    have := (hi i h₁).symm.trans (hi' i (by omega))
    simpa using this
  have hw : tokens ++ tokens'.drop tokens.length = tokens' ++ [] := by
    have := List.take_append_drop tokens.length tokens'
    rw [← ht] at this
    simpa using this
  have hstops : Derives.Stops p (tokens'.drop tokens.length) := by
    intro k hk hh
    rw [List.head?_drop, List.getElem?_eq_some_iff] at hh
    obtain ⟨hlt, hh⟩ := hh
    have := hi' _ hlt
    rw [hh] at this
    exact he.ne hk this
  obtain ⟨ht, hw⟩ := hd.unique hd' hw hstops fun k _ hh => by simp at hh
  exact ⟨hw, ht⟩

theorem parsed_unique {p : Phrase Binary64} {items : Nat → Except Error Token}
    {tokens tokens' : List Token} {tree tree' : Expr Binary64} (h : Parsed p items tokens tree)
    (h' : Parsed p items tokens' tree') : tokens = tokens' ∧ tree = tree' := by
  rcases Nat.le_total tokens.length tokens'.length with hle | hle
  · exact parsed_unique_of_le h h' hle
  · obtain ⟨ht, hw⟩ := parsed_unique_of_le h' h hle
    exact ⟨ht.symm, hw.symm⟩

/-! ## Phrases and what delivers them -/

theorem Spans.parsed {p : Phrase Binary64} {e : Expr Binary64} {value : Binary64} {s s' : TokenStream}
    {ws : List Token} (h : Spans symbols p e value s ws s') : Parsed p (s.deliveries symbols) ws e := by
  obtain ⟨hd, -, he, hs⟩ := h
  have hk := congrFun hs.deliveries_eq 0
  obtain ⟨s₀, hs, -⟩ := hs
  exact ⟨hd, exists_delivers.mp ⟨s₀, hs⟩, hk ▸ he⟩

theorem Parsed.delivers {p : Phrase Binary64} {s : TokenStream} {tokens : List Token} {tree : Expr Binary64}
    (h : Parsed p (s.deliveries symbols) tokens tree) :
    ∃ s₀, Delivers symbols s tokens s₀ ∧ p.EndsBefore (next symbols s₀).1 := by
  obtain ⟨-, hi, he⟩ := h
  obtain ⟨s₀, hs⟩ := exists_delivers.mpr hi
  have hk : (next symbols s₀).1 = s.deliveries symbols tokens.length := hs.deliveries_eq 0
  exact ⟨s₀, hs, hk ▸ he⟩

theorem accepts_of_reads {part : Part} {p : Phrase Binary64} {action : Reading Binary64} {s : TokenStream}
    (hp : ReadBy .ok p part) (ha : ∀ r s', action s = (r, s') ↔ Reads symbols part s r s')
    (hs : ∀ value s', Reads symbols part s (.ok value) s' → ∃ e ws, Spans symbols p e value s ws s') :
    Accepts symbols s p action where
  exactly value := by
    constructor
    · rintro ⟨s', h⟩
      obtain ⟨e, ws, h⟩ := hs value s' ((ha _ _).mp h)
      exact ⟨ws, e, h.parsed, hasValue_iff.mpr h.2.1⟩
    · rintro ⟨tokens, tree, h, hv⟩
      have hv := hasValue_iff.mp hv
      obtain ⟨s₀, hs, he⟩ := h.delivers
      have hc := comes_of_derives resolves_number h.1 hp hs he
      rw [hv] at hc
      obtain ⟨s', hr, -⟩ := hc
      exact ⟨s', (ha _ _).mpr hr⟩
  unique tokens tree tokens' tree' h h' := parsed_unique h h'
  behind value s' tokens tree h hparsed := by
    obtain ⟨e, ws, h⟩ := hs value s' ((ha _ _).mp h)
    obtain ⟨rfl, -⟩ := parsed_unique hparsed h.parsed
    exact h.2.2.2.deliveries_eq

theorem pushedBack_of_primary {part : Part} {s s' : TokenStream} {r : Except Error Binary64}
    (h : Reads symbols part s r s') (hp : part = .primary) {value : Binary64} (hr : r = .ok value) :
    s'.pushedBack = none := by
  induction h generalizing value with
  | number ht => exact pushedBack_of_next ht
  | @sign sign s s₁ r s' ht _ ih =>
    cases r with
    | error e => cases hr
    | ok v => exact ih rfl rfl
  | group _ _ hc _ => subst hr; exact pushedBack_of_next (of_close hc).2
  | root _ _ hc _ => subst hr; exact pushedBack_of_next (of_close hc).2
  | power _ _ _ hc _ _ => subst hr; exact pushedBack_of_next (of_close hc).2
  | _ => contradiction

theorem grammar_accepted (symbols : SymbolTable) (s : TokenStream) :
    Accepts symbols s (.chain .sum) (TokenStream.expression symbols) ∧
      Accepts symbols s .primary (TokenStream.primary symbols) ∧
      ∀ value s', TokenStream.primary symbols s = (.ok value, s') → s'.pushedBack = none := by
  refine ⟨?_, ?_, ?_⟩
  · exact accepts_of_reads (.chain .sum) (fun r s' => expression_eq_iff)
      fun value s' h => sound_of_reads h value rfl
  · exact accepts_of_reads .primary (fun r s' => primary_eq_iff) fun value s' h => sound_of_reads h value rfl
  · intro value s' h
    exact pushedBack_of_primary (primary_eq_iff.mp h) rfl rfl

end DeskCalculator
