import DeskCalculator.Proofs.Grammar.Rules

/-!
# The functions of the grammar follow its rules

With enough fuel every part of the grammar returns what `Reads` gives, and more fuel changes
nothing. So the functions without fuel return it too: `expression_eq_iff`, `primary_eq_iff`.
-/

namespace DeskCalculator

namespace Grammar

open TokenStream

/-- Reads a part of the grammar, as far as the fuel goes. -/
def attempt (symbols : SymbolTable) (n : Nat) : Part → Attempt Binary64
  | .primary => primary symbols n
  | .chain .sum => expression symbols n
  | .chain .product => term symbols n
  | .rest .sum left => expressionRest symbols n left
  | .rest .product left => termRest symbols n left
  | .argument op => do
    expect symbols op
    expression symbols n

variable {α β : Type} {symbols : SymbolTable} {s s' : TokenStream}

theorem bind_eq_some {x : Attempt α} {f : α → Attempt β} {r : Except Error β}
    (h : (x >>= f) s = some (r, s')) :
    (∃ e, x s = some (.error e, s') ∧ r = .error e) ∨
      ∃ a s₁, x s = some (.ok a, s₁) ∧ f a s₁ = some (r, s') := by
  cases hx : x s with
  | none =>
    simp only [bind, ExceptT.bind, ExceptT.mk, ExceptT.bindCont, StateT.bind, hx] at h
    cases h
  | some p =>
    obtain ⟨e | a, s₁⟩ := p
    · rw [bind_error hx] at h
      cases h
      exact Or.inl ⟨e, rfl, rfl⟩
    · rw [bind_ok hx] at h
      exact Or.inr ⟨a, s₁, rfl, h⟩

theorem lift_eq_some {x : Reading α} {r : Except Error α} (h : (liftM x : Attempt α) s = some (r, s')) :
    x s = (r, s') := Option.some.inj h

theorem lift_ok {x : Reading α} {r : Except Error α} (h : x s = (r, s')) :
    (liftM x : Attempt α) s = some (r, s') := congrArg some h

theorem lift_currentLine (s : TokenStream) :
    (liftM currentLine : Attempt Nat) s = some (.ok s.line, s) := rfl

/-! ## One step of an attempt -/

theorem attempt_chain (n : Nat) (c : Chain) : attempt symbols (n + 1) (.chain c) = (do
    let left ← attempt symbols n c.operand
    attempt symbols n (.rest c left)) := by
  cases c <;> rfl

theorem check_ok (line : Nat) (a : α) : (check line (.ok a) : Reading α) = pure a := rfl

theorem attempt_rest (n : Nat) (c : Chain) (left : Binary64) :
    attempt symbols (n + 1) (.rest c left) = (do
      let token ← next symbols
      let line ← currentLine
      match c.connective? token with
      | some k =>
        let right ← attempt symbols n c.operand
        let value ← check line (k.apply left right)
        attempt symbols n (.rest c value)
      | none =>
        putBack token
        return left) := by
  cases c with
  | sum =>
    refine (expressionRest.eq_def ..).trans (bind_congr fun token => ?_)
    split
    · rfl
    · rfl
    · next h₁ h₂ =>
      have : Chain.sum.connective? token = none := by
        unfold Chain.connective?
        split <;> first | rfl | simp_all
      simp only [this]
      rfl
  | product =>
    refine (termRest.eq_def ..).trans (bind_congr fun token => bind_congr fun line => ?_)
    split
    · rfl
    · rfl
    · rfl
    · next h₁ h₂ h₃ =>
      have : Chain.product.connective? token = none := by
        unfold Chain.connective?
        split <;> first | rfl | simp_all
      simp only [this]

theorem lift_pure (a : α) : (liftM (pure a : Reading α) : Attempt α) = pure a := rfl

theorem attempt_primary (n : Nat) :
    attempt symbols (n + 1) .primary = (do
      match ← next symbols with
      | .number value => return value
      | .operator .leftParen =>
        let value ← attempt symbols n (.chain .sum)
        close symbols (.ok value)
      | .operator .minus =>
        let value ← attempt symbols n .primary
        return -value
      | .operator .plus => attempt symbols n .primary
      | .keyword .pow =>
        let base ← attempt symbols n (.argument .leftParen)
        let exponent ← attempt symbols n (.argument .comma)
        close symbols (Evaluation.power base exponent)
      | .keyword .sqrt =>
        let operand ← attempt symbols n (.argument .leftParen)
        close symbols (Evaluation.squareRoot operand)
      | .identifier name => (fail (.undefinedVariable name) : Reading Binary64)
      | token => (reject token .expectedPrimary : Reading Binary64)) := by
  refine (primary.eq_def ..).trans (bind_congr fun token => ?_)
  split
  · rfl
  · simp only [attempt, close, check_ok, lift_bind, lift_pure, pure_bind]
    rfl
  · rfl
  · rfl
  · simp only [attempt, close, lift_bind, bind_assoc, lift_pure]
  · simp only [attempt, close, lift_bind, bind_assoc, lift_pure]
  · rfl
  · simp only

/-! ## What an attempt returns, the rules give -/

theorem attempt_zero {p : Part} {r : Except Error Binary64} (hp : ∀ op, p ≠ .argument op)
    (h : attempt symbols 0 p s = some (r, s')) : False := by
  cases p with
  | primary => cases h
  | chain c => cases c <;> cases h
  | rest c left => cases c <;> cases h
  | argument op => exact hp op rfl

section
variable {n : Nat} (ih : ∀ (p : Part) (s : TokenStream) r s', (∀ op, p ≠ .argument op) →
  attempt symbols n p s = some (r, s') → Reads symbols p s r s')
include ih

theorem reads_argument {op : Operator} {r : Except Error Binary64}
    (h : attempt symbols n (.argument op) s = some (r, s')) : Reads symbols (.argument op) s r s' := by
  obtain ⟨e, he, rfl⟩ | ⟨_, s₁, ho, h⟩ := bind_eq_some h
  · exact .argument_fails (lift_eq_some he)
  · exact .argument (lift_eq_some ho) (ih (.chain .sum) _ _ _ (by simp) h)

theorem reads_rest {c : Chain} {left : Binary64} {r : Except Error Binary64}
    (h : attempt symbols (n + 1) (.rest c left) s = some (r, s')) :
    Reads symbols (.rest c left) s r s' := by
  rw [attempt_rest] at h
  obtain ⟨e, he, rfl⟩ | ⟨token, s₁, ht, h⟩ := bind_eq_some h
  · exact .rest_unread (lift_eq_some he)
  replace ht := lift_eq_some ht
  rw [bind_ok (lift_currentLine s₁)] at h
  cases hk : c.connective? token with
  | none =>
    simp only [hk] at h
    have hb := putBack_eq_holding (pushedBack_of_next ht) token
    rw [bind_ok (lift_ok hb)] at h
    cases h
    refine .rest_ends ht fun k hc he => ?_
    rw [he, ← hc, Chain.connective?_operator] at hk
    cases hk
  | some k =>
    simp only [hk] at h
    obtain ⟨rfl, hc⟩ := Chain.eq_of_connective? hk
    have hp : ∀ op, c.operand ≠ .argument op := by cases c <;> simp [Chain.operand]
    obtain ⟨e, he, rfl⟩ | ⟨right, s₂, hr, h⟩ := bind_eq_some h
    · exact .rest_fails ht hc (ih _ _ _ _ hp he)
    have operand := ih _ _ _ _ hp hr
    cases hv : k.apply left right with
    | error cause =>
      rw [hv] at h
      cases h
      exact .rest_undefined ht hc operand hv
    | ok value =>
      rw [hv] at h
      exact .rest_more ht hc operand hv (ih _ _ _ _ (by simp) h)

theorem reads_primary {r : Except Error Binary64}
    (h : attempt symbols (n + 1) .primary s = some (r, s')) : Reads symbols .primary s r s' := by
  rw [attempt_primary] at h
  obtain ⟨e, he, rfl⟩ | ⟨token, s₁, ht, h⟩ := bind_eq_some h
  · exact .primary_unread (lift_eq_some he)
  replace ht := lift_eq_some ht
  split at h
  · cases h
    exact .number ht
  · obtain ⟨e, he, rfl⟩ | ⟨value, s₂, hv, h⟩ := bind_eq_some h
    · exact .group_fails ht (ih _ _ _ _ (by simp) he)
    · exact .group ht (ih _ _ _ _ (by simp) hv) (lift_eq_some h)
  · obtain ⟨e, he, rfl⟩ | ⟨value, s₂, hv, h⟩ := bind_eq_some h
    · exact @Reads.sign _ .minus _ _ _ _ ht (ih _ _ _ _ (by simp) he)
    · cases h
      exact @Reads.sign _ .minus _ _ _ _ ht (ih _ _ _ _ (by simp) hv)
  · have := @Reads.sign _ .plus _ _ _ _ ht (ih _ _ _ _ (by simp) h)
    cases r <;> exact this
  · obtain ⟨e, he, rfl⟩ | ⟨x, s₂, hx, h⟩ := bind_eq_some h
    · exact .power_base_fails ht (reads_argument ih he)
    obtain ⟨e, he, rfl⟩ | ⟨y, s₃, hy, h⟩ := bind_eq_some h
    · exact .power_exponent_fails ht (reads_argument ih hx) (reads_argument ih he)
    · exact .power ht (reads_argument ih hx) (reads_argument ih hy) (lift_eq_some h)
  · obtain ⟨e, he, rfl⟩ | ⟨x, s₂, hx, h⟩ := bind_eq_some h
    · exact .root_fails ht (reads_argument ih he)
    · exact .root ht (reads_argument ih hx) (lift_eq_some h)
  · cases h
    exact .name ht
  · next h₁ h₂ h₃ h₄ h₅ h₆ h₇ =>
    have ho : token.opensPrimary = false := by
      unfold Token.opensPrimary
      split <;> first | rfl | simp_all
    have := (lift_eq_some h).symm.trans (reject_eq (pushedBack_of_next ht) token _)
    cases this
    exact .other ht ho

end

theorem reads_of_attempt (n : Nat) : ∀ (p : Part) (s : TokenStream) (r : Except Error Binary64) s',
    attempt symbols n p s = some (r, s') → Reads symbols p s r s' := by
  -- An argument takes no fuel of its own, so it is left out of the induction on the fuel.
  have main : ∀ (p : Part) (s : TokenStream) r s', (∀ op, p ≠ .argument op) →
      attempt symbols n p s = some (r, s') → Reads symbols p s r s' := by
    induction n with
    | zero => intro p s r s' hp h; exact (attempt_zero hp h).elim
    | succ n ih =>
      intro p s r s' hp h
      cases p with
      | primary => exact reads_primary ih h
      | rest c left => exact reads_rest ih h
      | argument op => exact absurd rfl (hp op)
      | chain c =>
        have ho : ∀ op, c.operand ≠ .argument op := by cases c <;> simp [Chain.operand]
        rw [attempt_chain] at h
        obtain ⟨e, he, rfl⟩ | ⟨left, s₁, hl, h⟩ := bind_eq_some h
        · exact .chain_fails (ih _ _ _ _ ho he)
        · exact .chain (ih _ _ _ _ ho hl) (ih _ _ _ _ (by simp) h)
  intro p s r s' h
  cases p with
  | argument op => exact reads_argument main h
  | _ => exact main _ _ _ _ (by simp) h

/-! ## What the rules give, every attempt with enough fuel returns -/

theorem enough_succ {p : Part} {n : Nat} {a : Option (Except Error Binary64 × TokenStream)}
    (h : ∀ m, n ≤ m → attempt symbols (m + 1) p s = a) :
    ∃ n, ∀ m, n ≤ m → attempt symbols m p s = a := by
  refine ⟨n + 1, fun m hm => ?_⟩
  cases m with
  | zero => omega
  | succ m => exact h m (by omega)

theorem attempt_of_reads {p : Part} {r : Except Error Binary64} (h : Reads symbols p s r s') :
    ∃ n, ∀ m, n ≤ m → attempt symbols m p s = some (r, s') := by
  induction h with
  | chain_fails _ ih =>
    obtain ⟨n, hn⟩ := ih
    refine enough_succ (n := n) fun m hm => ?_
    rw [attempt_chain, bind_error (hn m hm)]
  | chain _ _ iho ihr =>
    obtain ⟨n, hn⟩ := iho
    obtain ⟨n', hn'⟩ := ihr
    refine enough_succ (n := n + n') fun m hm => ?_
    rw [attempt_chain, bind_ok (hn m (by omega)), hn' m (by omega)]
  | rest_unread ht =>
    refine enough_succ (n := 0) fun m _ => ?_
    rw [attempt_rest, bind_error (lift_ok ht)]
  | @rest_ends c _ _ token _ ht hc =>
    have hk : c.connective? token = none := by
      cases hk : c.connective? token with
      | none => rfl
      | some k =>
        obtain ⟨rfl, hkc⟩ := Chain.eq_of_connective? hk
        exact absurd rfl (hc k hkc)
    refine enough_succ (n := 0) fun m _ => ?_
    rw [attempt_rest, bind_ok (lift_ok ht), bind_ok (lift_currentLine _)]
    simp only [hk]
    rw [bind_ok (lift_ok (putBack_eq_holding (pushedBack_of_next ht) token))]
    rfl
  | @rest_fails k _ _ _ _ _ _ ht hc _ ih =>
    obtain ⟨n, hn⟩ := ih
    subst hc
    refine enough_succ (n := n) fun m hm => ?_
    rw [attempt_rest, bind_ok (lift_ok ht), bind_ok (lift_currentLine _)]
    simp only [Chain.connective?_operator]
    rw [bind_error (hn m hm)]
  | @rest_undefined k _ _ _ _ _ _ _ ht hc _ hv ih =>
    obtain ⟨n, hn⟩ := ih
    subst hc
    refine enough_succ (n := n) fun m hm => ?_
    rw [attempt_rest, bind_ok (lift_ok ht), bind_ok (lift_currentLine _)]
    simp only [Chain.connective?_operator]
    rw [bind_ok (hn m hm), hv]
    rfl
  | @rest_more k _ _ _ _ _ _ _ _ _ ht hc _ hv _ iho ihr =>
    obtain ⟨n, hn⟩ := iho
    obtain ⟨n', hn'⟩ := ihr
    subst hc
    refine enough_succ (n := n + n') fun m hm => ?_
    rw [attempt_rest, bind_ok (lift_ok ht), bind_ok (lift_currentLine _)]
    simp only [Chain.connective?_operator]
    rw [bind_ok (hn m (by omega)), hv]
    exact hn' m (by omega)
  | argument_fails ho => exact ⟨0, fun m _ => bind_error (lift_ok ho)⟩
  | argument ho _ ih =>
    obtain ⟨n, hn⟩ := ih
    exact ⟨n, fun m hm => (bind_ok (lift_ok ho)).trans (hn m hm)⟩
  | primary_unread ht =>
    refine enough_succ (n := 0) fun m _ => ?_
    rw [attempt_primary, bind_error (lift_ok ht)]
  | number ht =>
    refine enough_succ (n := 0) fun m _ => ?_
    rw [attempt_primary, bind_ok (lift_ok ht)]
    rfl
  | @sign sign _ _ r _ ht _ ih =>
    obtain ⟨n, hn⟩ := ih
    refine enough_succ (n := n) fun m hm => ?_
    rw [attempt_primary, bind_ok (lift_ok ht)]
    cases sign with
    | plus => cases r <;> exact hn m hm
    | minus =>
      cases r with
      | error e => exact bind_error (hn m hm)
      | ok value => exact bind_ok (hn m hm)
  | group_fails ht _ ih =>
    obtain ⟨n, hn⟩ := ih
    refine enough_succ (n := n) fun m hm => ?_
    rw [attempt_primary, bind_ok (lift_ok ht)]
    exact bind_error (hn m hm)
  | group ht _ hc ih =>
    obtain ⟨n, hn⟩ := ih
    refine enough_succ (n := n) fun m hm => ?_
    rw [attempt_primary, bind_ok (lift_ok ht)]
    exact (bind_ok (hn m hm)).trans (lift_ok hc)
  | root_fails ht _ ih =>
    obtain ⟨n, hn⟩ := ih
    refine enough_succ (n := n) fun m hm => ?_
    rw [attempt_primary, bind_ok (lift_ok ht)]
    exact bind_error (hn m hm)
  | root ht _ hc ih =>
    obtain ⟨n, hn⟩ := ih
    refine enough_succ (n := n) fun m hm => ?_
    rw [attempt_primary, bind_ok (lift_ok ht)]
    exact (bind_ok (hn m hm)).trans (lift_ok hc)
  | power_base_fails ht _ ih =>
    obtain ⟨n, hn⟩ := ih
    refine enough_succ (n := n) fun m hm => ?_
    rw [attempt_primary, bind_ok (lift_ok ht)]
    exact bind_error (hn m hm)
  | power_exponent_fails ht _ _ ihb ihx =>
    obtain ⟨n, hn⟩ := ihb
    obtain ⟨n', hn'⟩ := ihx
    refine enough_succ (n := n + n') fun m hm => ?_
    rw [attempt_primary, bind_ok (lift_ok ht)]
    exact (bind_ok (hn m (by omega))).trans (bind_error (hn' m (by omega)))
  | power ht _ _ hc ihb ihx =>
    obtain ⟨n, hn⟩ := ihb
    obtain ⟨n', hn'⟩ := ihx
    refine enough_succ (n := n + n') fun m hm => ?_
    rw [attempt_primary, bind_ok (lift_ok ht)]
    exact (bind_ok (hn m (by omega))).trans ((bind_ok (hn' m (by omega))).trans (lift_ok hc))
  | name ht =>
    refine enough_succ (n := 0) fun m _ => ?_
    rw [attempt_primary, bind_ok (lift_ok ht)]
    rfl
  | @other _ token _ ht ho =>
    refine enough_succ (n := 0) fun m _ => ?_
    rw [attempt_primary, bind_ok (lift_ok ht)]
    split
    all_goals first | cases ho | exact lift_ok (reject_eq (pushedBack_of_next ht) _ _)

end Grammar

namespace TokenStream

variable {symbols : SymbolTable} {s s' : TokenStream} {r : Except Error Binary64}

open Grammar

theorem eq_iff_reads {p : Part} {x : Reading Binary64} {n : Nat}
    (hx : attempt symbols n p s = some (x s)) : x s = (r, s') ↔ Reads symbols p s r s' := by
  constructor
  · intro h
    rw [h] at hx
    exact reads_of_attempt n p s r s' hx
  · intro h
    obtain ⟨m, hm⟩ := attempt_of_reads h
    obtain ⟨m', hm'⟩ := attempt_of_reads (reads_of_attempt n p s _ _ hx)
    have := (hm (m + m') (by omega)).symm.trans (hm' (m + m') (by omega))
    exact (Option.some.inj this).symm

theorem expression_eq_iff :
    expression symbols s = (r, s') ↔ Reads symbols (.chain .sum) s r s' :=
  eq_iff_reads (n := fuel s) (lift_expression symbols s).symm

theorem term_eq_iff : term symbols s = (r, s') ↔ Reads symbols (.chain .product) s r s' :=
  eq_iff_reads (n := fuel s) (Option.some_get _).symm

theorem primary_eq_iff : primary symbols s = (r, s') ↔ Reads symbols .primary s r s' :=
  eq_iff_reads (n := fuel s) (Option.some_get _).symm

end TokenStream

end DeskCalculator
