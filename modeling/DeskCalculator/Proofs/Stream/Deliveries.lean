import DeskCalculator.Proofs.Stream.Actions

/-!
# What a stream delivers

`deliveries` is the sequence of all answers of `next`. It never ends, for the end of the text is
delivered over and over. Streams whose next answers agree deliver the same from then on.
-/

namespace DeskCalculator.TokenStream

variable {symbols : SymbolTable}

/-- The answers that calls of `next` give one after the other. -/
def deliveries (symbols : SymbolTable) : TokenStream → Nat → Except Error Token
  | s, 0 => (next symbols s).1
  | s, n + 1 => deliveries symbols (next symbols s).2 n

/-- Calls of `next` deliver the tokens and leave the second stream. -/
inductive Delivers (symbols : SymbolTable) : TokenStream → List Token → TokenStream → Prop where
  | nil {s} : Delivers symbols s [] s
  | cons {s token s₁ tokens s'} (ht : next symbols s = (.ok token, s₁))
      (rest : Delivers symbols s₁ tokens s') : Delivers symbols s (token :: tokens) s'

theorem deliveries_congr {s₁ s₂ : TokenStream} (h : next symbols s₁ = next symbols s₂) :
    s₁.deliveries symbols = s₂.deliveries symbols := by
  funext k
  cases k <;> simp [deliveries, h]

namespace Delivers

variable {s s₁ s₂ s' : TokenStream} {token : Token} {tokens ws ws' : List Token}

theorem single (h : next symbols s = (.ok token, s')) : Delivers symbols s [token] s' := .cons h .nil

theorem cons_iff : Delivers symbols s (token :: tokens) s' ↔
    ∃ s₁, next symbols s = (.ok token, s₁) ∧ Delivers symbols s₁ tokens s' := by
  constructor
  · intro h
    cases h with
    | cons ht hr => exact ⟨_, ht, hr⟩
  · rintro ⟨s₁, ht, hr⟩
    exact .cons ht hr

theorem single_iff : Delivers symbols s [token] s' ↔ next symbols s = (.ok token, s') := by
  constructor
  · intro h
    obtain ⟨s₁, ht, hr⟩ := cons_iff.mp h
    cases hr
    exact ht
  · exact single

theorem pair {a b : Token} (h : Delivers symbols s [a, b] s') :
    ∃ s₁, next symbols s = (.ok a, s₁) ∧ next symbols s₁ = (.ok b, s') := by
  obtain ⟨s₁, ha, h⟩ := cons_iff.mp h
  exact ⟨s₁, ha, single_iff.mp h⟩

theorem triple {a b c : Token} (h : Delivers symbols s [a, b, c] s') :
    ∃ s₁ s₂, next symbols s = (.ok a, s₁) ∧ next symbols s₁ = (.ok b, s₂) ∧
      next symbols s₂ = (.ok c, s') := by
  obtain ⟨s₁, ha, h⟩ := cons_iff.mp h
  obtain ⟨s₂, hb, hc⟩ := h.pair
  exact ⟨s₁, s₂, ha, hb, hc⟩

theorem append_iff : Delivers symbols s (ws ++ ws') s' ↔
    ∃ s₁, Delivers symbols s ws s₁ ∧ Delivers symbols s₁ ws' s' := by
  induction ws generalizing s with
  | nil =>
    constructor
    · intro h
      exact ⟨s, .nil, h⟩
    · rintro ⟨s₁, h, h'⟩
      cases h
      exact h'
  | cons token ws ih =>
    simp only [List.cons_append, cons_iff, ih]
    constructor
    · rintro ⟨s₁, ht, s₂, h, h'⟩
      exact ⟨s₂, ⟨s₁, ht, h⟩, h'⟩
    · rintro ⟨s₂, ⟨s₁, ht, h⟩, h'⟩
      exact ⟨s₁, ht, s₂, h, h'⟩

theorem not_of_next {r : Except Error Token} (ht : next symbols s = (r, s₁)) (hr : r ≠ .ok token) :
    ¬ Delivers symbols s (token :: ws) s' := by
  intro h
  obtain ⟨s₂, h, -⟩ := cons_iff.mp h
  rw [ht] at h
  cases h
  exact hr rfl

theorem drop (h : Delivers symbols s ws s₁) (h' : Delivers symbols s (ws ++ ws') s') :
    Delivers symbols s₁ ws' s' := by
  induction h with
  | nil => exact h'
  | cons ht _ ih =>
    obtain ⟨s₂, ht', h'⟩ := cons_iff.mp h'
    rw [ht] at ht'
    cases ht'
    exact ih h'

theorem deliveries_eq (h : Delivers symbols s ws s') (k : Nat) :
    s'.deliveries symbols k = s.deliveries symbols (ws.length + k) := by
  induction h with
  | nil => simp
  | cons ht _ ih =>
    rw [ih, List.length_cons, Nat.add_right_comm]
    simp [deliveries, ht]

theorem pushedBack (h : Delivers symbols s ws s') (hw : ws ≠ []) : s'.pushedBack = none := by
  induction h with
  | nil => exact absurd rfl hw
  | @cons _ _ _ ws _ ht hr ih =>
    by_cases hws : ws = []
    · subst hws
      cases hr
      exact pushedBack_of_next ht
    · exact ih hws

end Delivers

/-- The first stream delivers the tokens, and the second one what comes after them. A token that was
looked at and put back may tell the second one from what calls of `next` leave. -/
def Passes (symbols : SymbolTable) (s : TokenStream) (tokens : List Token) (s' : TokenStream) : Prop :=
  ∃ s₁, Delivers symbols s tokens s₁ ∧ next symbols s' = next symbols s₁

namespace Passes

variable {s s₁ s' : TokenStream} {token : Token} {ws ws' : List Token}

theorem of_delivers (h : Delivers symbols s ws s') : Passes symbols s ws s' := ⟨s', h, rfl⟩

theorem cons (ht : next symbols s = (.ok token, s₁)) (h : Passes symbols s₁ ws s') :
    Passes symbols s (token :: ws) s' := by
  obtain ⟨s₂, h₂, hn⟩ := h
  exact ⟨s₂, .cons ht h₂, hn⟩

theorem trans (h : Passes symbols s ws s₁) (h' : Passes symbols s₁ ws' s') :
    Passes symbols s (ws ++ ws') s' := by
  obtain ⟨s₂, h₂, hn⟩ := h
  obtain ⟨s₃, h₃, hn'⟩ := h'
  cases h₃ with
  | nil => exact ⟨s₂, by simpa using h₂, hn'.trans hn⟩
  | cons ht hr => exact ⟨s₃, Delivers.append_iff.mpr ⟨s₂, h₂, .cons (hn ▸ ht) hr⟩, hn'⟩

theorem closed (h : Passes symbols s ws s₁) (ht : next symbols s₁ = (.ok token, s')) :
    Delivers symbols s (ws ++ [token]) s' := by
  obtain ⟨s₂, h₂, hn⟩ := h
  exact Delivers.append_iff.mpr ⟨s₂, h₂, .single (hn ▸ ht)⟩

theorem deliveries_eq (h : Passes symbols s ws s') :
    s'.deliveries symbols = fun k => s.deliveries symbols (ws.length + k) := by
  obtain ⟨s₁, h₁, hn⟩ := h
  funext k
  rw [deliveries_congr hn, h₁.deliveries_eq]

end Passes

theorem exists_delivers {s : TokenStream} {tokens : List Token} :
    (∃ s', Delivers symbols s tokens s') ↔
      ∀ i (h : i < tokens.length), s.deliveries symbols i = .ok tokens[i] := by
  induction tokens generalizing s with
  | nil => exact ⟨fun _ i h => by simp at h, fun _ => ⟨s, .nil⟩⟩
  | cons token tokens ih =>
    constructor
    · rintro ⟨s', h⟩ i hi
      obtain ⟨s₁, ht, hr⟩ := Delivers.cons_iff.mp h
      cases i with
      | zero => simp [deliveries, ht]
      | succ i =>
        have := ih.mp ⟨s', hr⟩ i (by simpa using hi)
        simpa [deliveries, ht] using this
    · intro h
      have ht : next symbols s = (.ok token, (next symbols s).2) := Prod.ext (h 0 (by simp)) rfl
      obtain ⟨s', hr⟩ := ih.mpr fun i hi => h (i + 1) (by simpa using hi)
      exact ⟨s', .cons ht hr⟩

end DeskCalculator.TokenStream
