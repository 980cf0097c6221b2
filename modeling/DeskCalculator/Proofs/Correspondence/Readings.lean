import DeskCalculator.Proofs.Grammar.Adequacy
import DeskCalculator.Proofs.Grammar.Moves

/-!
# Two runs side by side

A pairing says which streams, tables and lines of two runs go together, and how names differ. In a
correspondence each action on a stream has in the second run the answer that goes with the first one's, and
so has everything that is put together from actions. Once reading has failed in the first run, nothing is
asked of the second.
-/

namespace DeskCalculator

open TokenStream Grammar

def Token.rename (names : String → String) : Token → Token
  | .identifier name => .identifier (names name)
  | token => token

def Cause.rename (names : String → String) : Cause → Cause
  | .expectedAssignment name => .expectedAssignment (names name)
  | .duplicateDeclaration name => .duplicateDeclaration (names name)
  | .undefinedVariable name => .undefinedVariable (names name)
  | cause => cause

@[simp] theorem Token.rename_id : Token.rename id = id := by
  funext token
  cases token <;> rfl

@[simp] theorem Cause.rename_id : Cause.rename id = id := by
  funext cause
  cases cause <;> rfl

section
variable (names : String → String)

theorem Token.rename_eq_operator {token : Token} {op : Operator} :
    token.rename names = .operator op ↔ token = .operator op := by
  cases token <;> simp [rename]

theorem Token.isOperator_rename (token : Token) (op : Operator) :
    (token.rename names).isOperator op = token.isOperator op := by
  simp [isOperator, rename_eq_operator]

theorem Chain.connective?_rename (c : Chain) (token : Token) :
    c.connective? (token.rename names) = c.connective? token := by
  cases token <;> cases c <;> rfl

theorem Cause.Arithmetic.rename_eq {cause : Cause} (h : cause.Arithmetic) : cause.rename names = cause := by
  cases h <;> rfl

end

structure Pairing where
  names : String → String
  lines : Nat → Nat → Prop
  tables : SymbolTable → SymbolTable → Prop
  streams : TokenStream → TokenStream → Prop

namespace Pairing

variable (K : Pairing) {α β α' β' : Type}

inductive Results (related : α → β → Prop) : Except Cause α → Except Cause β → Prop where
  | ok {a b} (h : related a b) : Results related (.ok a) (.ok b)
  | error (cause : Cause) : Results related (.error cause) (.error (cause.rename K.names))

/-- What an action comes to, with the stream it leaves. Anything goes with a failing input, fuel that does not
last included. -/
inductive Answers (related : α → β → Prop) :
    Except Error α × TokenStream → Option (Except Error β × TokenStream) → Prop where
  | ok {a b s t} (h : related a b) (hs : K.streams s t) : Answers related (.ok a, s) (some (.ok b, t))
  | mistake {line line' s t} (cause : Cause) (hl : K.lines line line') (hs : K.streams s t) :
      Answers related (.error (.statement cause line), s)
        (some (.error (.statement (cause.rename K.names) line'), t))
  | cut {reason s answer} : Answers related (.error (.io reason), s) answer

def Follows (related : α → β → Prop) (x : Reading α) (y : Reading β) : Prop :=
  ∀ s t, K.streams s t → K.Answers related (x s) (some (y t))

def Tracks (related : α → β → Prop) (x : Attempt α) (y : Attempt β) : Prop :=
  ∀ s t, K.streams s t → ∀ p, x s = some p → K.Answers related p (y t)

variable {K} {related : α → β → Prop} {related' : α' → β' → Prop}

theorem Answers.mono {p : Except Error α × TokenStream} {q q' : Option (Except Error β × TokenStream)}
    (h : K.Answers related p q) (hq : ∀ a, q = some a → q' = some a) : K.Answers related p q' := by
  cases h with
  | ok h hs => rw [hq _ rfl]; exact .ok h hs
  | mistake cause hl hs => rw [hq _ rfl]; exact .mistake cause hl hs
  | cut => exact .cut

theorem Follows.tracks {x : Reading α} {y : Reading β} (h : K.Follows related x y) :
    K.Tracks related (liftM x) (liftM y) := by
  intro s t hst p hp
  cases hp
  exact h s t hst

theorem Tracks.follows {x : Reading α} {y : Reading β} (h : K.Tracks related (liftM x) (liftM y)) :
    K.Follows related x y := fun s t hst => h s t hst (x s) rfl

theorem tracks_outOfFuel {y : Attempt β} : K.Tracks related (outOfFuel : Attempt α) y := by
  intro s t _ p hp
  cases hp

theorem Tracks.bind {x : Attempt α} {y : Attempt β} {f : α → Attempt α'} {g : β → Attempt β'}
    (hx : K.Tracks related x y) (hf : ∀ a b, related a b → K.Tracks related' (f a) (g b)) :
    K.Tracks related' (x >>= f) (y >>= g) := by
  rintro s t hst ⟨r, s'⟩ hp
  obtain ⟨e, he, rfl⟩ | ⟨a, s₁, ha, hp⟩ := bind_eq_some hp
  · have hy := hx s t hst _ he
    generalize hq : y t = q at hy
    cases hy with
    | mistake cause hl hs => rw [bind_error hq]; exact .mistake cause hl hs
    | cut => exact .cut
  · have hy := hx s t hst _ ha
    generalize hq : y t = q at hy
    cases hy with
    | ok h hs => rw [bind_ok hq]; exact hf _ _ h _ _ hs _ hp

theorem Follows.bind {x : Reading α} {y : Reading β} {f : α → Reading α'} {g : β → Reading β'}
    (hx : K.Follows related x y) (hf : ∀ a b, related a b → K.Follows related' (f a) (g b)) :
    K.Follows related' (x >>= f) (y >>= g) := by
  refine Tracks.follows ?_
  rw [lift_bind, lift_bind]
  exact hx.tracks.bind fun a b h => (hf a b h).tracks

theorem follows_pure {a : α} {b : β} (h : related a b) : K.Follows related (pure a) (pure b) :=
  fun _ _ hst => .ok h hst

theorem tracks_pure {a : α} {b : β} (h : related a b) : K.Tracks related (pure a) (pure b) :=
  (follows_pure h).tracks

theorem follows_check {line line' : Nat} {r : Except Cause α} {r' : Except Cause β} (hl : K.lines line line')
    (hr : K.Results related r r') : K.Follows related (check line r) (check line' r') := by
  intro s t hst
  cases hr with
  | ok h => exact .ok h hst
  | error cause => exact .mistake cause hl hst

/-- A result whose cause has no name in it is the same in both runs. -/
theorem results_refl {r : Except Cause α} (h : ∀ cause, r = .error cause → cause.rename K.names = cause) :
    K.Results Eq r r := by
  cases r with
  | ok a => exact .ok rfl
  | error cause =>
    have hresult : K.Results Eq (.error cause : Except Cause α) (.error (cause.rename K.names)) := .error cause
    rwa [h cause rfl] at hresult

end Pairing

/-- A pairing that every action on a stream keeps to. -/
structure Correspondence extends Pairing where
  lines_line {s t} : streams s t → lines s.line t.line
  map_pushedBack {s t} : streams s t → t.pushedBack = s.pushedBack.map (Token.rename names)
  streams_holding {s t} (token : Token) : streams s t → s.pushedBack = none →
    streams (s.holding token) (t.holding (token.rename names))
  answers_next {σ τ s t} : tables σ τ → streams s t →
    toPairing.Answers (fun token token' => token' = token.rename names) (next σ s) (some (next τ t))
  answers_skipPast {s t} : streams s t → toPairing.Answers Eq (skipPast .equals s) (some (skipPast .equals t))
  results_declare {σ τ} (name : String) (value : Binary64) : tables σ τ →
    toPairing.Results tables (σ.declare name value) (τ.declare (names name) value)
  isQuit_rename (token : Token) : (token.rename names).isQuit = token.isQuit

namespace Correspondence

variable {K : Correspondence} {α : Type} {σ τ : SymbolTable}

open Pairing

theorem follows_next (h : K.tables σ τ) :
    K.Follows (fun token token' => token' = token.rename K.names) (next σ) (next τ) :=
  fun _ _ hst => K.answers_next h hst

theorem follows_currentLine : K.Follows K.lines currentLine currentLine :=
  fun _ _ hst => .ok (K.lines_line hst) hst

theorem follows_fail (cause : Cause) {related : α → α → Prop} :
    K.Follows related (fail cause) (fail (cause.rename K.names)) :=
  fun _ _ hst => .mistake cause (K.lines_line hst) hst

theorem follows_putBack (token : Token) : K.Follows Eq (putBack token) (putBack (token.rename K.names)) := by
  intro s t hst
  have hp := K.map_pushedBack hst
  cases hs : s.pushedBack with
  | none =>
    rw [hs] at hp
    rw [putBack_eq_holding hs, putBack_eq_holding hp]
    exact .ok rfl (K.streams_holding token hst hs)
  | some held =>
    rw [hs] at hp
    simp only [putBack, hs, hp, Option.map_some]
    exact .mistake .pushbackOverflow (K.lines_line hst) hst

theorem follows_reject (offender : Token) (cause : Cause) {related : α → α → Prop} :
    K.Follows related (reject offender cause) (reject (offender.rename K.names) (cause.rename K.names)) := by
  refine follows_currentLine.bind fun line line' hl => ?_
  rw [Token.isOperator_rename]
  have hthrow : K.Follows related (throw (.statement cause line))
      (throw (.statement (cause.rename K.names) line')) := fun _ _ hst => .mistake cause hl hst
  split
  · exact (follows_putBack offender).bind fun _ _ _ => hthrow
  · exact hthrow

theorem follows_expect (h : K.tables σ τ) (op : Operator) : K.Follows Eq (expect σ op) (expect τ op) := by
  refine (follows_next h).bind fun token _ ht => ?_
  subst ht
  rw [Token.isOperator_rename]
  split
  · exact follows_pure rfl
  · exact follows_reject token (.expectedToken op.symbol)

theorem follows_close (h : K.tables σ τ) {result : Except Cause Binary64}
    (hr : ∀ cause, result = .error cause → cause.Arithmetic) :
    K.Follows Eq (close σ result) (close τ result) := by
  refine follows_currentLine.bind fun line line' hl => ?_
  have hrefl : K.Results Eq result result := results_refl fun cause hc => (hr cause hc).rename_eq K.names
  refine (follows_check hl hrefl).bind fun value _ hv => ?_
  exact (follows_expect h .rightParen).bind fun _ _ _ => follows_pure hv

/-! ## The grammar -/

section
variable (h : K.tables σ τ) {n : Nat} (ih : ∀ p, K.Tracks Eq (attempt σ n p) (attempt τ n p))
include h ih

theorem tracks_rest (c : Chain) (left : Binary64) :
    K.Tracks Eq (attempt σ (n + 1) (.rest c left)) (attempt τ (n + 1) (.rest c left)) := by
  rw [attempt_rest, attempt_rest]
  refine (follows_next h).tracks.bind fun token _ ht => ?_
  subst ht
  refine follows_currentLine.tracks.bind fun line line' hl => ?_
  rw [Chain.connective?_rename]
  cases c.connective? token with
  | some k =>
    refine (ih c.operand).bind fun right _ hr => ?_
    subst hr
    have hk : K.Results Eq (k.apply left right) (k.apply left right) :=
      results_refl fun _ hv => (Connective.arithmetic_of_apply hv).rename_eq K.names
    refine (follows_check hl hk).tracks.bind fun value _ hv => ?_
    subst hv
    exact ih (.rest c value)
  | none => exact (follows_putBack token).tracks.bind fun _ _ _ => tracks_pure rfl

theorem tracks_primary : K.Tracks Eq (attempt σ (n + 1) .primary) (attempt τ (n + 1) .primary) := by
  rw [attempt_primary, attempt_primary]
  refine (follows_next h).tracks.bind fun token _ ht => ?_
  subst ht
  have hreject (token : Token) : K.Tracks Eq (liftM (reject token .expectedPrimary : Reading Binary64))
      (liftM (reject (token.rename K.names) .expectedPrimary : Reading Binary64)) :=
    (follows_reject token .expectedPrimary).tracks
  cases token with
  | number value => exact tracks_pure rfl
  | identifier name => exact (follows_fail (.undefinedVariable name)).tracks
  | operator op =>
    cases op with
    | leftParen =>
      refine (ih (.chain .sum)).bind fun value _ hv => ?_
      subst hv
      exact (follows_close h (by simp)).tracks
    | minus => exact (ih .primary).bind fun value _ hv => tracks_pure (by rw [hv])
    | plus => exact ih .primary
    | _ => exact hreject _
  | keyword keyword =>
    cases keyword with
    | pow =>
      refine (ih (.argument .leftParen)).bind fun base _ hb => ?_
      refine (ih (.argument .comma)).bind fun exponent _ he => ?_
      subst hb he
      exact (follows_close h fun _ => Evaluation.arithmetic_of_power).tracks
    | sqrt =>
      refine (ih (.argument .leftParen)).bind fun operand _ ho => ?_
      subst ho
      exact (follows_close h fun _ => Evaluation.arithmetic_of_squareRoot).tracks
    | _ => exact hreject _
  | endOfInput => exact hreject _

end

variable (h : K.tables σ τ)
include h

theorem tracks_argument (n : Nat) (op : Operator)
    (hc : K.Tracks Eq (attempt σ n (.chain .sum)) (attempt τ n (.chain .sum))) :
    K.Tracks Eq (attempt σ n (.argument op)) (attempt τ n (.argument op)) :=
  (follows_expect h op).tracks.bind fun _ _ _ => hc

theorem tracks_attempt (n : Nat) : ∀ p, K.Tracks Eq (attempt σ n p) (attempt τ n p) := by
  induction n with
  | zero =>
    have hchain (c : Chain) : K.Tracks Eq (attempt σ 0 (.chain c)) (attempt τ 0 (.chain c)) := by
      cases c <;> exact tracks_outOfFuel
    intro p
    cases p with
    | primary => exact tracks_outOfFuel
    | chain c => exact hchain c
    | rest c left => cases c <;> exact tracks_outOfFuel
    | argument op => exact tracks_argument h 0 op (hchain .sum)
  | succ n ih =>
    have hchain (c : Chain) : K.Tracks Eq (attempt σ (n + 1) (.chain c)) (attempt τ (n + 1) (.chain c)) := by
      rw [attempt_chain, attempt_chain]
      refine (ih c.operand).bind fun left _ hl => ?_
      subst hl
      exact ih (.rest c left)
    intro p
    cases p with
    | primary => exact tracks_primary h ih
    | chain c => exact hchain c
    | rest c left => exact tracks_rest h ih c left
    | argument op => exact tracks_argument h (n + 1) op (hchain .sum)

theorem follows_expression : K.Follows Eq (expression σ) (expression τ) := by
  intro s t hst
  have ha := tracks_attempt h (fuel s) (.chain .sum) s t hst _ (lift_expression σ s).symm
  -- The fuel of the first run is any fuel to the second, which the rules do not see.
  refine ha.mono fun q hq => ?_
  rw [expression_eq_iff.mpr (reads_of_attempt (fuel s) (.chain .sum) t q.1 q.2 hq)]

end Correspondence

end DeskCalculator
