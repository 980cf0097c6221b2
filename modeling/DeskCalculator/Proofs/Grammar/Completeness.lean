import DeskCalculator.Proofs.Grammar.Soundness

/-!
# A phrase is read

Where the tokens of a phrase are delivered, reading it comes to its value and leaves what is behind
them. If an operation on the way has no result, the first one that has none is what the reading fails
for. Leaves may be names without a value here.
-/

namespace DeskCalculator

open TokenStream Grammar

variable {symbols : SymbolTable}

/-! ## Names without a value -/

/-- A leaf is a number, or a name that there is no value for. -/
def Resolves {α : Type} (leaf : α → Token) (value : α → Except Cause Binary64) : Prop :=
  ∀ a, (∃ v, leaf a = .number v ∧ value a = .ok v) ∨
    ∃ name, leaf a = .identifier name ∧ value a = .error (.undefinedVariable name)

theorem resolves_number : Resolves .number .ok := fun a => Or.inl ⟨a, rfl, rfl⟩

section
variable {α : Type} {leaf : α → Token} {value : α → Except Cause Binary64}

/-- The part of the grammar that reads a phrase; what stands to its left has a value by then. -/
inductive ReadBy (value : α → Except Cause Binary64) : Phrase α → Part → Prop where
  | primary : ReadBy value .primary .primary
  | chain (c : Chain) : ReadBy value (.chain c) (.chain c)
  | rest {c : Chain} {left : Expr α} {x : Binary64} (hx : left.evaluate value = .ok x) :
      ReadBy value (.rest c left) (.rest c x)

theorem ReadBy.operand (c : Chain) : ReadBy value (.operand c) c.operand := by
  cases c
  · exact .chain .product
  · exact .primary

/-- Reading a part comes to a result, and to the second stream if that is a value. -/
def Comes (symbols : SymbolTable) (part : Part) (s : TokenStream) (result : Except Cause Binary64)
    (s₀ : TokenStream) : Prop :=
  match result with
  | .ok v => ∃ s', Reads symbols part s (.ok v) s' ∧ next symbols s' = next symbols s₀
  | .error cause => ∃ line s', Reads symbols part s (.error (.statement cause line)) s'

theorem Comes.chain {c : Chain} {s s₁ s₀ : TokenStream} {result : Except Cause Binary64} {x : Binary64}
    (ho : Comes symbols c.operand s (.ok x) s₁) (hr : Comes symbols (.rest c x) s₁ result s₀) :
    Comes symbols (.chain c) s result s₀ := by
  obtain ⟨s₂, ho, hn⟩ := ho
  cases result with
  | ok v =>
    obtain ⟨s', hr, hs⟩ := hr
    exact ⟨s', .chain ho (hr.congr hn), hs⟩
  | error cause =>
    obtain ⟨line, s', hr⟩ := hr
    exact ⟨line, s', .chain ho (hr.congr hn)⟩

theorem Comes.rest_more {k : Connective} {c : Chain} {s s₁ s₂ s₀ : TokenStream} {x y z : Binary64}
    {result : Except Cause Binary64} (ht : next symbols s = (.ok (.operator k.operator), s₁))
    (hc : k.chain = c) (ho : Comes symbols c.operand s₁ (.ok y) s₂) (hv : k.apply x y = .ok z)
    (hr : Comes symbols (.rest c z) s₂ result s₀) : Comes symbols (.rest c x) s result s₀ := by
  obtain ⟨s₃, ho, hn⟩ := ho
  cases result with
  | ok v =>
    obtain ⟨s', hr, hs⟩ := hr
    exact ⟨s', .rest_more ht hc ho hv (hr.congr hn), hs⟩
  | error cause =>
    obtain ⟨line, s', hr⟩ := hr
    exact ⟨line, s', .rest_more ht hc ho hv (hr.congr hn)⟩

theorem Comes.argument {op : Operator} {s s₁ s₀ : TokenStream} {result : Except Cause Binary64}
    (ht : next symbols s = (.ok (.operator op), s₁)) (h : Comes symbols (.chain .sum) s₁ result s₀) :
    Comes symbols (.argument op) s result s₀ := by
  cases result with
  | ok v =>
    obtain ⟨s', hr, hs⟩ := h
    exact ⟨s', .argument (expect_of_next ht) hr, hs⟩
  | error cause =>
    obtain ⟨line, s', hr⟩ := h
    exact ⟨line, s', .argument (expect_of_next ht) hr⟩

theorem Comes.sign {sign : Sign} {s s₁ s₀ : TokenStream} {result : Except Cause Binary64}
    (ht : next symbols s = (.ok (.operator sign.operator), s₁)) (h : Comes symbols .primary s₁ result s₀) :
    Comes symbols .primary s (result.map sign.apply) s₀ := by
  cases result with
  | ok v =>
    obtain ⟨s', hr, hs⟩ := h
    exact ⟨s', .sign ht hr, hs⟩
  | error cause =>
    obtain ⟨line, s', hr⟩ := h
    exact ⟨line, s', .sign ht hr⟩

theorem evaluate_of_left {A : Alphabet α Token} {c : Chain} {left e : Expr α} {ws : List Token} {cause : Cause}
    (h : Derives A (.rest c left) e ws) (hl : left.evaluate value = .error cause) :
    e.evaluate value = .error cause := by
  generalize hp : Phrase.rest c left = p at h
  induction h generalizing left with
  | rest_nil => cases hp; exact hl
  | rest_cons _ _ _ _ ihr =>
    cases hp
    exact ihr (Expr.evaluate_binary_left _ _ hl) rfl
  | _ => cases hp

theorem endsBefore_operand {c : Chain} {left e : Expr α} {ws : List Token} {s s₀ : TokenStream}
    (h : Derives (.tokens leaf) (.rest c left) e ws) (hs : Delivers symbols s ws s₀)
    (he : (Phrase.chain c : Phrase α).EndsBefore (next symbols s₀).1) :
    (Phrase.operand c : Phrase α).EndsBefore (next symbols s).1 := by
  cases h with
  | rest_nil =>
    cases hs
    obtain hp | ⟨token, ht, hn⟩ := he
    · cases hp
    · refine Or.inr ⟨token, ht, ?_⟩
      intro k hk
      exact hn k ((Phrase.takes_chain c k).mpr (Or.inr hk))
  | @rest_cons k _ _ _ _ _ _ hc _ _ =>
    obtain ⟨s₁, ht, -⟩ := Delivers.cons_iff.mp hs
    refine Or.inr ⟨_, by rw [ht], ?_⟩
    intro k' hk' he'
    have hkk : k.operator = k'.operator := by simpa [Alphabet.tokens] using he'
    rw [← Connective.operator_injective hkk, Phrase.not_takes_operand hc] at hk'
    cases hk'

theorem comes_of_derives (hl : Resolves leaf value) {p : Phrase α} {e : Expr α} {ws : List Token}
    (h : Derives (.tokens leaf) p e ws) : ∀ {part s s₀}, ReadBy value p part → Delivers symbols s ws s₀ →
      p.EndsBefore (next symbols s₀).1 → Comes symbols part s (e.evaluate value) s₀ := by
  -- What stands behind an operand is read only if the operand has a value; where it has none,
  -- `evaluate_of_left` takes its reason through the rest of the chain.
  induction h with
  | @chain c left e ws ws' _ hrest iho ihr =>
    intro part s s₀ hp hs he
    cases hp
    obtain ⟨s₁, hs₁, hs₂⟩ := Delivers.append_iff.mp hs
    have ho := iho (.operand c) hs₁ (endsBefore_operand hrest hs₂ he)
    cases hv : left.evaluate value with
    | ok x =>
      rw [hv] at ho
      exact ho.chain (ihr (.rest hv) hs₂ (Phrase.endsBefore_rest.mpr he))
    | error cause =>
      rw [hv] at ho
      rw [evaluate_of_left hrest hv]
      obtain ⟨line, s', hr⟩ := ho
      exact ⟨line, s', .chain_fails hr⟩
  | @rest_nil c left =>
    intro part s s₀ hp hs he
    cases hp with
    | rest hx =>
      cases hs
      rw [hx]
      obtain hp | ⟨token, ht, hn⟩ := Phrase.endsBefore_rest.mp he
      · cases hp
      · have ht : next symbols s = (.ok token, (next symbols s).2) := Prod.ext ht rfl
        refine ⟨_, .rest_ends ht fun k hk => hn k ((Phrase.takes_chain c k).mpr (Or.inl hk)), ?_⟩
        rw [next_holding (pushedBack_of_next ht), ← ht]
  | @rest_cons k c left right e ws ws' hc _ hrest iho ihr =>
    intro part s s₀ hp hs he
    rw [Phrase.endsBefore_rest] at he
    cases hp with
    | @rest _ _ x hx =>
      obtain ⟨s₁, ht, hs⟩ := Delivers.cons_iff.mp hs
      obtain ⟨s₂, hs₁, hs₂⟩ := Delivers.append_iff.mp hs
      have ho := iho (.operand c) hs₁ (endsBefore_operand hrest hs₂ he)
      cases hv : right.evaluate value with
      | error cause =>
        rw [hv] at ho
        rw [evaluate_of_left hrest (Expr.evaluate_binary_right k hx hv)]
        obtain ⟨line, s', hr⟩ := ho
        exact ⟨line, s', .rest_fails ht hc hr⟩
      | ok y =>
        rw [hv] at ho
        have hb := Expr.evaluate_binary k hx hv
        cases ha : k.apply x y with
        | error cause =>
          rw [evaluate_of_left hrest (hb.trans ha)]
          obtain ⟨s', hr, -⟩ := ho
          exact ⟨_, s', .rest_undefined ht hc hr ha⟩
        | ok z => exact ho.rest_more ht hc ha (ihr (.rest (hb.trans ha)) hs₂ (Phrase.endsBefore_rest.mpr he))
  | leaf a =>
    intro part s s₀ hp hs _
    cases hp
    have ht := Delivers.single_iff.mp hs
    rcases hl a with ⟨v, hv, ha⟩ | ⟨name, hv, ha⟩
    · rw [Expr.evaluate, ha]
      exact ⟨s₀, .number (by rw [ht, ← hv]; rfl), rfl⟩
    · rw [Expr.evaluate, ha]
      exact ⟨_, s₀, .name (by rw [ht, ← hv]; rfl)⟩
  | @sign sign e ws _ ih =>
    intro part s s₀ hp hs _
    cases hp
    obtain ⟨s₁, ht, hs⟩ := Delivers.cons_iff.mp hs
    exact (ih .primary hs (Or.inl rfl)).sign ht
  | @group e ws _ ih =>
    intro part s s₀ hp hs _
    cases hp
    obtain ⟨s₁, ht, hs⟩ := Delivers.cons_iff.mp hs
    obtain ⟨s₂, hs₁, hs₂⟩ := Delivers.append_iff.mp hs
    have hc := Delivers.single_iff.mp hs₂
    have hi := ih (.chain .sum) hs₁ (by rw [hc]; exact Phrase.endsBefore_separator rfl)
    cases hv : e.evaluate value with
    | ok v =>
      rw [hv] at hi
      obtain ⟨s', hr, hn⟩ := hi
      exact ⟨s₀, .group ht hr (close_of_next (hn.trans hc)), rfl⟩
    | error cause =>
      rw [hv] at hi
      obtain ⟨line, s', hr⟩ := hi
      exact ⟨line, s', .group_fails ht hr⟩
  | @power base exponent ws ws' _ _ ihb ihe =>
    intro part s s₀ hp hs _
    cases hp
    obtain ⟨s₁, ht, hs⟩ := Delivers.cons_iff.mp hs
    obtain ⟨s₂, ho, hs⟩ := Delivers.cons_iff.mp hs
    obtain ⟨s₃, hs₁, hs⟩ := Delivers.append_iff.mp hs
    obtain ⟨s₄, hcomma, hs⟩ := Delivers.cons_iff.mp hs
    obtain ⟨s₅, hs₂, hs⟩ := Delivers.append_iff.mp hs
    have hc := Delivers.single_iff.mp hs
    have hb := (ihb (.chain .sum) hs₁ (by rw [hcomma]; exact Phrase.endsBefore_separator rfl)).argument ho
    have he := ihe (.chain .sum) hs₂ (by rw [hc]; exact Phrase.endsBefore_separator rfl)
    cases hx : base.evaluate value with
    | error cause =>
      rw [hx] at hb
      obtain ⟨line, s', hr⟩ := hb
      rw [Expr.evaluate_power_base exponent hx]
      exact ⟨line, s', .power_base_fails ht hr⟩
    | ok x =>
      rw [hx] at hb
      obtain ⟨sb, hb, hnb⟩ := hb
      have he := he.argument (hnb.trans hcomma)
      cases hy : exponent.evaluate value with
      | error cause =>
        rw [hy] at he
        obtain ⟨line, s', hr⟩ := he
        rw [Expr.evaluate_power_exponent hx hy]
        exact ⟨line, s', .power_exponent_fails ht hb hr⟩
      | ok y =>
        rw [hy] at he
        obtain ⟨se, he, hne⟩ := he
        rw [Expr.evaluate_power hx hy]
        cases hv : Evaluation.power x y with
        | error cause => exact ⟨_, se, .power ht hb he (by rw [hv]; exact close_of_undefined)⟩
        | ok v => exact ⟨s₀, .power ht hb he (by rw [hv]; exact close_of_next (hne.trans hc)), rfl⟩
  | @root e ws _ ih =>
    intro part s s₀ hp hs _
    cases hp
    obtain ⟨s₁, ht, hs⟩ := Delivers.cons_iff.mp hs
    obtain ⟨s₂, ho, hs⟩ := Delivers.cons_iff.mp hs
    obtain ⟨s₃, hs₁, hs⟩ := Delivers.append_iff.mp hs
    have hc := Delivers.single_iff.mp hs
    have hi := (ih (.chain .sum) hs₁ (by rw [hc]; exact Phrase.endsBefore_separator rfl)).argument ho
    cases hx : e.evaluate value with
    | error cause =>
      rw [hx] at hi
      obtain ⟨line, s', hr⟩ := hi
      rw [Expr.evaluate_root_operand hx]
      exact ⟨line, s', .root_fails ht hr⟩
    | ok x =>
      rw [hx] at hi
      obtain ⟨s', hr, hn⟩ := hi
      rw [Expr.evaluate_root hx]
      cases hv : Evaluation.squareRoot x with
      | error cause => exact ⟨_, s', .root ht hr (by rw [hv]; exact close_of_undefined)⟩
      | ok v => exact ⟨s₀, .root ht hr (by rw [hv]; exact close_of_next (hn.trans hc)), rfl⟩

end

end DeskCalculator
