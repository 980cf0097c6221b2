import Mathlib.Logic.Relation
import DeskCalculator.Proofs.Grammar.Rules

/-!
# The steps of a reading

Whatever part of the grammar is read and however that ends, the stream only makes moves: it takes
tokens that are no terminators, and looks at a token and puts it back. A reading that fails does so
at one of these moves, and `Blame` says for what.
-/

namespace DeskCalculator

open TokenStream Grammar

/-- One step of a reading. No terminator is ever taken. -/
inductive Move (symbols : SymbolTable) : TokenStream → TokenStream → Prop where
  | take {s token s'} (ht : next symbols s = (.ok token, s')) (hn : token ≠ .operator .equals) :
      Move symbols s s'
  | look {s token s'} (ht : next symbols s = (.ok token, s')) : Move symbols s (s'.holding token)
  | fail {s e s'} (ht : next symbols s = (.error e, s')) : Move symbols s s'

abbrev Moves (symbols : SymbolTable) : TokenStream → TokenStream → Prop :=
  Relation.ReflTransGen (Move symbols)

inductive Cause.Arithmetic : Cause → Prop where
  | divideByZero : Arithmetic .divideByZero
  | moduloByZero : Arithmetic .moduloByZero
  | negativeSqrt (operand : Binary64) : Arithmetic (.negativeSqrt operand)
  | exponentOutOfRange (exponent : Binary64) : Arithmetic (.exponentOutOfRange exponent)

/-- A reading fails at the first stream and leaves the second: no token came, a name has no value,
a token does not belong there, or an operation on numbers has no result. -/
inductive Blame (symbols : SymbolTable) : TokenStream → Error → TokenStream → Prop where
  | unread {s e s'} (ht : next symbols s = (.error e, s')) : Blame symbols s e s'
  | name {s name s'} (ht : next symbols s = (.ok (.identifier name), s')) :
      Blame symbols s (.statement (.undefinedVariable name) s'.line) s'
  | primary {s token s'} (ht : next symbols s = (.ok token, s')) (ho : token.opensPrimary = false) :
      Blame symbols s (.statement .expectedPrimary s'.line) (s'.abandoned token)
  | token {s token s'} {op : Operator} (ht : next symbols s = (.ok token, s'))
      (ho : token ≠ .operator op) :
      Blame symbols s (.statement (.expectedToken op.symbol) s'.line) (s'.abandoned token)
  | arithmetic {s cause line} (hc : cause.Arithmetic) : Blame symbols s (.statement cause line) s

theorem Evaluation.arithmetic_of_divide {x y : Binary64} {cause : Cause}
    (h : divide x y = .error cause) : cause.Arithmetic := by
  unfold divide at h
  split at h <;> cases h
  exact .divideByZero

theorem Evaluation.arithmetic_of_remainder {x y : Binary64} {cause : Cause}
    (h : remainder x y = .error cause) : cause.Arithmetic := by
  unfold remainder at h
  split at h <;> cases h
  exact .moduloByZero

theorem Evaluation.arithmetic_of_squareRoot {x : Binary64} {cause : Cause}
    (h : squareRoot x = .error cause) : cause.Arithmetic := by
  unfold squareRoot at h
  split at h <;> cases h
  exact .negativeSqrt x

theorem Evaluation.arithmetic_of_power {x y : Binary64} {cause : Cause}
    (h : power x y = .error cause) : cause.Arithmetic := by
  have ht : truncate y = .error cause := by
    unfold power at h
    cases ht : truncate y with
    | error c => rw [ht] at h; cases h; rfl
    | ok n => rw [ht] at h; cases h
  simp only [truncate] at ht
  split at ht <;> cases ht
  exact .exponentOutOfRange y

theorem Connective.arithmetic_of_apply {k : Connective} {x y : Binary64} {cause : Cause}
    (h : k.apply x y = .error cause) : cause.Arithmetic := by
  cases k with
  | plus => cases h
  | minus => cases h
  | times => cases h
  | divide => exact Evaluation.arithmetic_of_divide h
  | remainder => exact Evaluation.arithmetic_of_remainder h

variable {symbols : SymbolTable}

theorem Connective.operator_ne_equals (k : Connective) : Token.operator k.operator ≠ .operator .equals :=
  (Connective.ne_of_separates rfl k).symm

theorem Sign.operator_ne_equals (sign : Sign) : Token.operator sign.operator ≠ .operator .equals :=
  (Sign.ne_of_separates rfl sign).symm

theorem move_abandoned {s s' : TokenStream} {token : Token} (ht : next symbols s = (.ok token, s')) :
    Move symbols s (s'.abandoned token) := by
  unfold abandoned
  split
  · exact .look ht
  · next hn => exact .take ht hn

/-- A reading that succeeded or failed, by its moves. -/
def Traced (symbols : SymbolTable) {α : Type} (s : TokenStream) (r : Except Error α) (s' : TokenStream) :
    Prop :=
  Moves symbols s s' ∧ ∀ e, r = .error e → ∃ s₀, Moves symbols s s₀ ∧ Blame symbols s₀ e s'

section
variable {α β : Type} {s s₁ s' : TokenStream}

theorem Traced.ok {a : α} (h : Moves symbols s s') : Traced symbols s (.ok a) s' :=
  ⟨h, fun e he => by cases he⟩

theorem Traced.blame {e : Error} (h : Moves symbols s s₁) (hb : Blame symbols s₁ e s')
    (hm : Moves symbols s₁ s') : Traced symbols s (.error e : Except Error α) s' :=
  ⟨h.trans hm, fun e' he => by cases he; exact ⟨s₁, h, hb⟩⟩

theorem Traced.after {r : Except Error α} (h : Moves symbols s s₁) (ht : Traced symbols s₁ r s') :
    Traced symbols s r s' :=
  ⟨h.trans ht.1, fun e he => by
    obtain ⟨s₀, hm, hb⟩ := ht.2 e he
    exact ⟨s₀, h.trans hm, hb⟩⟩

theorem Traced.error {e : Error} (h : Traced symbols s (.error e : Except Error α) s') :
    Traced symbols s (.error e : Except Error β) s' :=
  ⟨h.1, fun e' he => by cases he; exact h.2 e rfl⟩

theorem traced_unread {e : Error} (ht : next symbols s = (.error e, s')) :
    Traced symbols s (.error e : Except Error α) s' :=
  .blame .refl (.unread ht) (.single (.fail ht))

theorem traced_expect {op : Operator} (ho : op ≠ .equals) {r : Except Error Unit}
    (h : expect symbols op s = (r, s')) : Traced symbols s r s' := by
  cases hn : next symbols s with
  | mk answer s₁ =>
    cases answer with
    | error e =>
      rw [expect_of_error hn] at h
      cases h
      exact traced_unread hn
    | ok token =>
      rw [expect_of_ok hn] at h
      split at h
      · next he =>
        cases h
        subst he
        exact .ok (.single (.take hn (by simpa using ho)))
      · next he =>
        cases h
        exact .blame .refl (.token hn he) (.single (move_abandoned hn))

theorem traced_close {result : Except Cause Binary64} {r : Except Error Binary64}
    (hc : ∀ cause, result = .error cause → cause.Arithmetic)
    (h : close symbols result s = (r, s')) : Traced symbols s r s' := by
  cases result with
  | error cause =>
    cases h
    exact .blame .refl (.arithmetic (hc cause rfl)) .refl
  | ok value =>
    cases hx : expect symbols .rightParen s with
    | mk answer s₁ =>
      have ht := traced_expect (by simp) hx
      rw [close_of_ok hx] at h
      cases answer with
      | error e => cases h; exact ht.error
      | ok u => cases h; exact .ok ht.1

end

theorem traced_of_reads {p : Part} {s s' : TokenStream} {r : Except Error Binary64}
    (h : Reads symbols p s r s') (hp : p ≠ .argument .equals) : Traced symbols s r s' := by
  induction h with
  | @chain_fails c _ _ _ _ ih => exact ih (by cases c <;> simp [Chain.operand])
  | @chain c _ _ _ _ _ _ _ iho ihr =>
    exact (ihr (by simp)).after (iho (by cases c <;> simp [Chain.operand])).1
  | rest_unread ht => exact traced_unread ht
  | rest_ends ht _ => exact .ok (.single (.look ht))
  | @rest_fails k c _ _ _ _ _ ht _ _ ih =>
    exact (ih (by cases c <;> simp [Chain.operand])).after (.single (.take ht k.operator_ne_equals))
  | @rest_undefined k c _ _ _ _ _ _ ht _ _ hv ih =>
    have := (ih (by cases c <;> simp [Chain.operand])).1
    exact .blame (this.head (.take ht k.operator_ne_equals)) (.arithmetic (k.arithmetic_of_apply hv)) .refl
  | @rest_more k c _ _ _ _ _ _ _ _ ht _ _ _ _ iho ihr =>
    have := (iho (by cases c <;> simp [Chain.operand])).1
    exact (ihr (by simp)).after (this.head (.take ht k.operator_ne_equals))
  | argument_fails ho =>
    refine (traced_expect ?_ ho).error
    simpa using hp
  | argument ho _ ih =>
    refine (ih (by simp)).after (traced_expect ?_ ho).1
    simpa using hp
  | primary_unread ht => exact traced_unread ht
  | number ht => exact .ok (.single (.take ht (by simp)))
  | @sign sign _ _ r _ ht _ ih =>
    have := (ih (by simp)).after (.single (.take ht sign.operator_ne_equals))
    cases r with
    | error e => exact this
    | ok value => exact .ok this.1
  | group_fails ht _ ih => exact (ih (by simp)).after (.single (.take ht (by simp)))
  | group ht _ hc ih =>
    have := (ih (by simp)).1
    exact (traced_close (fun _ he => by cases he) hc).after (this.head (.take ht (by simp)))
  | root_fails ht _ ih => exact (ih (by simp)).after (.single (.take ht (by simp)))
  | root ht _ hc ih =>
    have := (ih (by simp)).1
    exact (traced_close (fun _ => Evaluation.arithmetic_of_squareRoot) hc).after
      (this.head (.take ht (by simp)))
  | power_base_fails ht _ ih => exact (ih (by simp)).after (.single (.take ht (by simp)))
  | power_exponent_fails ht _ _ ihb ihx =>
    have := (ihb (by simp)).1
    exact (ihx (by simp)).after (this.head (.take ht (by simp)))
  | power ht _ _ hc ihb ihx =>
    have := (ihb (by simp)).1.trans (ihx (by simp)).1
    exact (traced_close (fun _ => Evaluation.arithmetic_of_power) hc).after
      (this.head (.take ht (by simp)))
  | name ht => exact .blame .refl (.name ht) (.single (.take ht (by simp)))
  | other ht ho => exact .blame .refl (.primary ht ho) (.single (move_abandoned ht))

theorem moves_of_reads {part : Part} {s s' : TokenStream} {r : Except Error Binary64}
    (h : Reads symbols part s r s') (hp : part ≠ .argument .equals) : Moves symbols s s' :=
  (traced_of_reads h hp).1

end DeskCalculator
