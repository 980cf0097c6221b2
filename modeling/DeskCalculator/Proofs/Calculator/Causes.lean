import DeskCalculator.Proofs.Calculator.DeclaredNames

/-!
# What can go wrong

Two causes are never seen. A token is put back only where `next` has just emptied the slot, and a name
is declared only where it was a name without a value when it was read, with the table it is declared in.
So whatever stands on a stream, each error of a statement is `Ordinary`.
-/

namespace DeskCalculator

open TokenStream

/-- The causes that are reported. -/
inductive Cause.Reportable : Cause → Prop where
  | badToken (text : String) : Reportable (.badToken text)
  | expectedToken (symbol : Char) : Reportable (.expectedToken symbol)
  | expectedPrimary : Reportable .expectedPrimary
  | expectedName : Reportable .expectedName
  | expectedAssignment (name : String) : Reportable (.expectedAssignment name)
  | undefinedVariable (name : String) : Reportable (.undefinedVariable name)
  | divideByZero : Reportable .divideByZero
  | moduloByZero : Reportable .moduloByZero
  | negativeSqrt (operand : Binary64) : Reportable (.negativeSqrt operand)
  | exponentOutOfRange (exponent : Binary64) : Reportable (.exponentOutOfRange exponent)

/-- The error has a cause that is reported, or the input fails with it. -/
def Error.Ordinary (failure : Option String) : Error → Prop
  | .statement cause _ => cause.Reportable
  | .io reason => failure = some reason

/-- An action fails with ordinary errors only, whatever stream it is performed on. -/
def Reading.Ordinary {α : Type} (action : Reading α) : Prop :=
  ∀ s e, (action s).1 = .error e → e.Ordinary s.failure

variable {symbols : SymbolTable}

theorem Cause.Arithmetic.reportable {cause : Cause} (h : cause.Arithmetic) : cause.Reportable := by
  cases h <;> constructor

/-! ## Reading -/

section
variable {s s' : TokenStream} {e : Error}

theorem ordinary_of_next (h : next symbols s = (.error e, s')) : e.Ordinary s.failure := by
  rcases of_next_error h with ⟨c, -, rfl⟩ | ⟨-, -, reason, hf, rfl⟩
  · exact .badToken c.toString
  · exact hf

theorem ordinary_of_blame (h : Blame symbols s e s') : e.Ordinary s.failure := by
  cases h with
  | unread ht => exact ordinary_of_next ht
  | @name name _ _ => exact .undefinedVariable name
  | primary _ _ => exact .expectedPrimary
  | @token _ _ op _ _ => exact .expectedToken op.symbol
  | arithmetic hc => exact hc.reportable

theorem ordinary_of_reads {part : Part} (h : Reads symbols part s (.error e) s') (hp : part ≠ .argument .equals) :
    e.Ordinary s.failure := by
  obtain ⟨s₀, hm, hb⟩ := (traced_of_reads h hp).2 e rfl
  have := ordinary_of_blame hb
  rwa [(invariant_failure symbols _).of_moves rfl hm] at this

end

theorem ordinary_of_reading {part : Part} (hp : part ≠ .argument .equals) {action : Reading Binary64}
    (h : ∀ s r s', action s = (r, s') ↔ Reads symbols part s r s') : action.Ordinary :=
  fun s _ he => ordinary_of_reads ((h s _ _).mp (Prod.ext he rfl)) hp

theorem ordinary_expression (symbols : SymbolTable) : (expression symbols).Ordinary :=
  ordinary_of_reading (by simp) fun _ _ _ => expression_eq_iff

theorem ordinary_term (symbols : SymbolTable) : (term symbols).Ordinary :=
  ordinary_of_reading (by simp) fun _ _ _ => term_eq_iff

theorem ordinary_primary (symbols : SymbolTable) : (primary symbols).Ordinary :=
  ordinary_of_reading (by simp) fun _ _ _ => primary_eq_iff

/-! ## Statements -/

section
variable {s s' : TokenStream} {name : String}

/-- The name of a declaration was read with an empty slot, so it has no value. -/
theorem find?_of_declaration {w : Token} {ws : List Token}
    (h : Delivers symbols s (w :: .identifier name :: ws) s') : symbols.find? name = none := by
  obtain ⟨s₁, ht, h⟩ := Delivers.cons_iff.mp h
  obtain ⟨s₂, hn, -⟩ := Delivers.cons_iff.mp h
  exact find?_of_next (fresh_of_none (pushedBack_of_next ht)) hn

theorem ordinary_of_evaluates {e : Error} {c' : Calculator} (h : Evaluates symbols s (.error e) c') :
    e.Ordinary s.failure := by
  cases (fault_of_evaluates h).1 with
  | blame hd hm hb =>
    have := ordinary_of_blame hb
    have hI := invariant_failure symbols s.failure
    rwa [hI.of_moves (hI.of_delivers rfl hd) hm] at this
  | name_missing => exact .expectedName
  | equals_missing => exact .expectedAssignment _
  | redeclared hd hv =>
    obtain ⟨table, hv'⟩ := SymbolTable.declare_of_find? (find?_of_declaration hd) _
    rw [hv] at hv'
    cases hv'

end

namespace Calculator

theorem ordinary_evaluateNext (c : Calculator) {e : Error} (h : c.evaluateNext.1 = .error e) :
    e.Ordinary c.stream.failure := by
  obtain ⟨s₀, ho⟩ := exists_opens c.symbols c.stream
  rw [← (invariant_failure c.symbols _).of_opens rfl ho]
  exact ordinary_of_evaluates (evaluates_of_evaluateNext ho (Prod.ext h rfl))

theorem failure_evaluateNext (c : Calculator) : c.evaluateNext.2.stream.failure = c.stream.failure :=
  (invariant_failure c.symbols c.stream.failure).of_evaluateNext rfl

end Calculator

theorem ordinary_statement (symbols : SymbolTable) : (statement.onStream symbols).Ordinary := by
  intro s e he
  change (statement symbols s).1.1 = .error e at he
  cases ht : next symbols s with
  | mk answer s₁ =>
    cases answer with
    | error e' =>
      rw [statement, Evaluating.bind_of_error ht] at he
      cases he
      exact ordinary_of_next ht
    | ok token =>
      by_cases hd : token = .keyword .declare
      · -- A declaration fails as the evaluation of the same stream does.
        subst hd
        have ho : Opens symbols s s := ⟨⟨0, .nil⟩, by rw [ht]; simp⟩
        rw [statement_of_declare ht] at he
        have hc := Calculator.evaluateNext_of_declare (c := ⟨s, symbols⟩) ho ht (Prod.ext (Prod.ext he rfl) rfl)
        exact Calculator.ordinary_evaluateNext ⟨s, symbols⟩ (congrArg Prod.fst hc)
      · obtain ⟨r, s', hr⟩ := Calculator.exists_reads symbols s
        rw [statement_of_expression ht hd hr] at he
        cases he
        exact ordinary_of_reads hr (by simp)

end DeskCalculator
