import DeskCalculator.Grammar.Fuel
import DeskCalculator.Proofs.Stream.Actions

/-!
# What reading a part of the grammar does

`Reads` gives the rules of the grammar's functions one step at a time, with every way to fail and
without fuel. Both chains of operands follow the same rules. `expression_eq_iff` and
`primary_eq_iff`: the functions return exactly what the rules give.
-/

namespace DeskCalculator

inductive Connective where
  | plus
  | minus
  | times
  | divide
  | remainder
  deriving DecidableEq

/-- The two levels of the grammar that are chains of operands. -/
inductive Chain where
  | sum
  | product
  deriving DecidableEq

inductive Sign where
  | plus
  | minus
  deriving DecidableEq

namespace Connective

def operator : Connective → Operator
  | .plus => .plus
  | .minus => .minus
  | .times => .times
  | .divide => .divide
  | .remainder => .remainder

def chain : Connective → Chain
  | .plus => .sum
  | .minus => .sum
  | .times => .product
  | .divide => .product
  | .remainder => .product

def apply : Connective → Binary64 → Binary64 → Except Cause Binary64
  | .plus, left, right => .ok (left + right)
  | .minus, left, right => .ok (left - right)
  | .times, left, right => .ok (left * right)
  | .divide, left, right => Evaluation.divide left right
  | .remainder, left, right => Evaluation.remainder left right

theorem operator_injective {k k' : Connective} (h : k.operator = k'.operator) : k = k' := by
  cases k <;> cases k' <;> first | rfl | cases h

end Connective

namespace Sign

def operator : Sign → Operator
  | .plus => .plus
  | .minus => .minus

def apply : Sign → Binary64 → Binary64
  | .plus, value => value
  | .minus, value => -value

end Sign

/-- The operators that end what stands before them. -/
def Operator.separates : Operator → Bool
  | .rightParen | .comma | .equals => true
  | _ => false

theorem Connective.not_separates (k : Connective) : k.operator.separates = false := by
  cases k <;> rfl

theorem Sign.not_separates (sign : Sign) : sign.operator.separates = false := by
  cases sign <;> rfl

theorem Connective.ne_of_separates {op : Operator} (h : op.separates = true) (k : Connective) :
    Token.operator op ≠ .operator k.operator := by
  intro he
  cases he
  rw [k.not_separates] at h
  cases h

theorem Sign.ne_of_separates {op : Operator} (h : op.separates = true) (sign : Sign) :
    Token.operator op ≠ .operator sign.operator := by
  intro he
  cases he
  rw [sign.not_separates] at h
  cases h

def Chain.connective? : Chain → Token → Option Connective
  | .sum, .operator .plus => some .plus
  | .sum, .operator .minus => some .minus
  | .product, .operator .times => some .times
  | .product, .operator .divide => some .divide
  | .product, .operator .remainder => some .remainder
  | _, _ => none

theorem Chain.connective?_operator (k : Connective) :
    k.chain.connective? (.operator k.operator) = some k := by
  cases k <;> rfl

theorem Chain.eq_of_connective? {c : Chain} {token : Token} {k : Connective}
    (h : c.connective? token = some k) : token = .operator k.operator ∧ k.chain = c := by
  unfold Chain.connective? at h
  split at h <;> cases h <;> exact ⟨rfl, rfl⟩

/-- Can a primary begin with the token, or a name stand where one should? -/
def Token.opensPrimary : Token → Bool
  | .number _ => true
  | .identifier _ => true
  | .operator .leftParen => true
  | .operator .plus => true
  | .operator .minus => true
  | .keyword .pow => true
  | .keyword .sqrt => true
  | _ => false

namespace TokenStream

theorem expect_of_error {symbols : SymbolTable} {op : Operator} {s s' : TokenStream} {e : Error}
    (h : next symbols s = (.error e, s')) : Grammar.expect symbols op s = (.error e, s') :=
  Reading.bind_of_error h

theorem expect_of_ok {symbols : SymbolTable} {op : Operator} {s s' : TokenStream} {token : Token}
    (h : next symbols s = (.ok token, s')) : Grammar.expect symbols op s =
      if token = .operator op then (.ok (), s')
      else (.error (.statement (.expectedToken op.symbol) s'.line), s'.abandoned token) := by
  unfold Grammar.expect
  rw [Reading.bind_of_ok h]
  by_cases ho : token = .operator op
  · have hi : token.isOperator op = true := by simp [Token.isOperator, ho]
    simp only [hi, if_true]
    rw [if_pos ho]
    rfl
  · have hi : token.isOperator op = false := by simp [Token.isOperator, ho]
    simp only [hi]
    rw [if_neg ho]
    exact reject_eq (pushedBack_of_next h) token _

/-- Ends a primary with what its parentheses come to. The value is computed before the closing one
is read. -/
def close (symbols : SymbolTable) (result : Except Cause Binary64) : Reading Binary64 := do
  let line ← currentLine
  let value ← check line result
  Grammar.expect symbols .rightParen
  return value

theorem close_of_ok {symbols : SymbolTable} {value : Binary64} {s s' : TokenStream} {r : Except Error Unit}
    (h : Grammar.expect symbols .rightParen s = (r, s')) :
    close symbols (.ok value) s = (r.map fun _ => value, s') := by
  have hclose : close symbols (.ok value) s =
      (Grammar.expect symbols .rightParen >>= fun _ => (pure value : Reading Binary64)) s := rfl
  rw [hclose]
  cases r with
  | error e => exact Reading.bind_of_error h
  | ok u => exact Reading.bind_of_ok h

variable {symbols : SymbolTable}

theorem expect_of_next {op : Operator} {s s' : TokenStream} (h : next symbols s = (.ok (.operator op), s')) :
    Grammar.expect symbols op s = (.ok (), s') := by
  rw [expect_of_ok h]
  simp

theorem close_of_next {value : Binary64} {s s' : TokenStream}
    (h : next symbols s = (.ok (.operator .rightParen), s')) : close symbols (.ok value) s = (.ok value, s') :=
  close_of_ok (expect_of_next h)

theorem close_of_undefined {cause : Cause} {s : TokenStream} :
    close symbols (.error cause) s = (.error (.statement cause s.line), s) := rfl

theorem next_of_expect {op : Operator} {s s' : TokenStream} (h : Grammar.expect symbols op s = (.ok (), s')) :
    next symbols s = (.ok (.operator op), s') := by
  cases hn : next symbols s with
  | mk answer s₁ =>
    cases answer with
    | error e =>
      rw [expect_of_error hn] at h
      cases h
    | ok token =>
      rw [expect_of_ok hn] at h
      split at h
      · next ht => cases h; rw [ht]
      · cases h

theorem of_close {result : Except Cause Binary64} {value : Binary64} {s s' : TokenStream}
    (h : close symbols result s = (.ok value, s')) :
    result = .ok value ∧ next symbols s = (.ok (.operator .rightParen), s') := by
  cases result with
  | error cause => cases h
  | ok v =>
    cases hx : Grammar.expect symbols .rightParen s with
    | mk answer s₁ =>
      rw [close_of_ok hx] at h
      cases answer with
      | error e => cases h
      | ok u => cases h; exact ⟨rfl, next_of_expect hx⟩

end TokenStream

/-- The parts of the grammar that read themselves and each other: a chain, what follows of one
whose left part has a value, and an expression behind an operator that has to come first. -/
inductive Part where
  | primary
  | chain (c : Chain)
  | rest (c : Chain) (left : Binary64)
  | argument (opening : Operator)

def Chain.operand : Chain → Part
  | .sum => .chain .product
  | .product => .primary

open TokenStream Grammar

inductive Reads (symbols : SymbolTable) :
    Part → TokenStream → Except Error Binary64 → TokenStream → Prop where
  | chain_fails {c s e s'} (operand : Reads symbols c.operand s (.error e) s') :
      Reads symbols (.chain c) s (.error e) s'
  | chain {c s left s₁ r s'} (operand : Reads symbols c.operand s (.ok left) s₁)
      (rest : Reads symbols (.rest c left) s₁ r s') : Reads symbols (.chain c) s r s'
  | rest_unread {c left s e s'} (token : next symbols s = (.error e, s')) :
      Reads symbols (.rest c left) s (.error e) s'
  | rest_ends {c : Chain} {left s token s₁} (ht : next symbols s = (.ok token, s₁))
      (hc : ∀ k : Connective, k.chain = c → token ≠ .operator k.operator) :
      Reads symbols (.rest c left) s (.ok left) (s₁.holding token)
  | rest_fails {k : Connective} {c left s s₁ e s'}
      (ht : next symbols s = (.ok (.operator k.operator), s₁)) (hc : k.chain = c)
      (operand : Reads symbols c.operand s₁ (.error e) s') :
      Reads symbols (.rest c left) s (.error e) s'
  | rest_undefined {k : Connective} {c left s s₁ right s' cause}
      (ht : next symbols s = (.ok (.operator k.operator), s₁)) (hc : k.chain = c)
      (operand : Reads symbols c.operand s₁ (.ok right) s')
      (hv : k.apply left right = .error cause) :
      Reads symbols (.rest c left) s (.error (.statement cause s₁.line)) s'
  | rest_more {k : Connective} {c left s s₁ right s₂ value r s'}
      (ht : next symbols s = (.ok (.operator k.operator), s₁)) (hc : k.chain = c)
      (operand : Reads symbols c.operand s₁ (.ok right) s₂)
      (hv : k.apply left right = .ok value)
      (rest : Reads symbols (.rest c value) s₂ r s') : Reads symbols (.rest c left) s r s'
  | argument_fails {op s e s'} (opening : expect symbols op s = (.error e, s')) :
      Reads symbols (.argument op) s (.error e) s'
  | argument {op s s₁ r s'} (opening : expect symbols op s = (.ok (), s₁))
      (expression : Reads symbols (.chain .sum) s₁ r s') : Reads symbols (.argument op) s r s'
  | primary_unread {s e s'} (token : next symbols s = (.error e, s')) :
      Reads symbols .primary s (.error e) s'
  | number {s value s'} (ht : next symbols s = (.ok (.number value), s')) :
      Reads symbols .primary s (.ok value) s'
  | sign {sign : Sign} {s s₁ r s'} (ht : next symbols s = (.ok (.operator sign.operator), s₁))
      (operand : Reads symbols .primary s₁ r s') :
      Reads symbols .primary s (r.map sign.apply) s'
  | group_fails {s s₁ e s'} (ht : next symbols s = (.ok (.operator .leftParen), s₁))
      (expression : Reads symbols (.chain .sum) s₁ (.error e) s') :
      Reads symbols .primary s (.error e) s'
  | group {s s₁ value s₂ r s'} (ht : next symbols s = (.ok (.operator .leftParen), s₁))
      (expression : Reads symbols (.chain .sum) s₁ (.ok value) s₂)
      (closing : close symbols (.ok value) s₂ = (r, s')) : Reads symbols .primary s r s'
  | root_fails {s s₁ e s'} (ht : next symbols s = (.ok (.keyword .sqrt), s₁))
      (operand : Reads symbols (.argument .leftParen) s₁ (.error e) s') :
      Reads symbols .primary s (.error e) s'
  | root {s s₁ value s₂ r s'} (ht : next symbols s = (.ok (.keyword .sqrt), s₁))
      (operand : Reads symbols (.argument .leftParen) s₁ (.ok value) s₂)
      (closing : close symbols (Evaluation.squareRoot value) s₂ = (r, s')) :
      Reads symbols .primary s r s'
  | power_base_fails {s s₁ e s'} (ht : next symbols s = (.ok (.keyword .pow), s₁))
      (base : Reads symbols (.argument .leftParen) s₁ (.error e) s') :
      Reads symbols .primary s (.error e) s'
  | power_exponent_fails {s s₁ x s₂ e s'} (ht : next symbols s = (.ok (.keyword .pow), s₁))
      (base : Reads symbols (.argument .leftParen) s₁ (.ok x) s₂)
      (exponent : Reads symbols (.argument .comma) s₂ (.error e) s') :
      Reads symbols .primary s (.error e) s'
  | power {s s₁ x s₂ y s₃ r s'} (ht : next symbols s = (.ok (.keyword .pow), s₁))
      (base : Reads symbols (.argument .leftParen) s₁ (.ok x) s₂)
      (exponent : Reads symbols (.argument .comma) s₂ (.ok y) s₃)
      (closing : close symbols (Evaluation.power x y) s₃ = (r, s')) :
      Reads symbols .primary s r s'
  | name {s name s'} (ht : next symbols s = (.ok (.identifier name), s')) :
      Reads symbols .primary s (.error (.statement (.undefinedVariable name) s'.line)) s'
  | other {s token s₁} (ht : next symbols s = (.ok token, s₁)) (ho : token.opensPrimary = false) :
      Reads symbols .primary s (.error (.statement .expectedPrimary s₁.line)) (s₁.abandoned token)

variable {symbols : SymbolTable}

/-! ## Readings see nothing but deliveries -/

theorem expect_congr {op : Operator} {s s₂ : TokenStream} (hn : next symbols s₂ = next symbols s) :
    expect symbols op s₂ = expect symbols op s := by
  cases h : next symbols s with
  | mk answer s₁ =>
    have h₂ := hn.trans h
    cases answer with
    | error e => rw [expect_of_error h, expect_of_error h₂]
    | ok token => rw [expect_of_ok h, expect_of_ok h₂]

theorem Reads.congr {part : Part} {s s₂ s' : TokenStream} {r : Except Error Binary64}
    (h : Reads symbols part s r s') (hn : next symbols s₂ = next symbols s) : Reads symbols part s₂ r s' := by
  induction h with
  | chain_fails _ ih => exact .chain_fails (ih hn)
  | chain _ hr iho _ => exact .chain (iho hn) hr
  | rest_unread ht => exact .rest_unread (hn.trans ht)
  | rest_ends ht hc => exact .rest_ends (hn.trans ht) hc
  | rest_fails ht hc ho _ => exact .rest_fails (hn.trans ht) hc ho
  | rest_undefined ht hc ho hv _ => exact .rest_undefined (hn.trans ht) hc ho hv
  | rest_more ht hc ho hv hr _ _ => exact .rest_more (hn.trans ht) hc ho hv hr
  | argument_fails ho => exact .argument_fails ((expect_congr hn).trans ho)
  | argument ho he _ => exact .argument ((expect_congr hn).trans ho) he
  | primary_unread ht => exact .primary_unread (hn.trans ht)
  | number ht => exact .number (hn.trans ht)
  | sign ht ho _ => exact .sign (hn.trans ht) ho
  | group_fails ht he _ => exact .group_fails (hn.trans ht) he
  | group ht he hc _ => exact .group (hn.trans ht) he hc
  | root_fails ht ho _ => exact .root_fails (hn.trans ht) ho
  | root ht ho hc _ => exact .root (hn.trans ht) ho hc
  | power_base_fails ht hb _ => exact .power_base_fails (hn.trans ht) hb
  | power_exponent_fails ht hb he _ _ => exact .power_exponent_fails (hn.trans ht) hb he
  | power ht hb he hc _ _ => exact .power (hn.trans ht) hb he hc
  | name ht => exact .name (hn.trans ht)
  | other ht ho => exact .other (hn.trans ht) ho

/-! ## A chain puts back what ends it -/

theorem held_of_reads {part : Part} {s s' : TokenStream} {r : Except Error Binary64}
    (h : Reads symbols part s r s') (hp : (∃ c, part = .chain c) ∨ ∃ c x, part = .rest c x) {value : Binary64}
    (hr : r = .ok value) : ∃ token, s'.pushedBack = some token := by
  induction h with
  | chain _ _ _ ih => exact ih (Or.inr ⟨_, _, rfl⟩) hr
  | rest_ends => exact ⟨_, rfl⟩
  | rest_more _ _ _ _ _ _ ih => exact ih (Or.inr ⟨_, _, rfl⟩) hr
  | _ => first | contradiction | simp at hp

theorem eq_holding_of_reads {c : Chain} {s s' s₁ : TokenStream} {value : Binary64} {token : Token}
    (h : Reads symbols (.chain c) s (.ok value) s') (ht : next symbols s' = (.ok token, s₁)) :
    s' = s₁.holding token := by
  obtain ⟨held, hp⟩ := held_of_reads h (Or.inl ⟨c, rfl⟩) rfl
  exact eq_holding_of_next hp ht

end DeskCalculator
