import DeskCalculator.Calculator

/-!
# Calculators make progress

Every statement that has a value or fails takes a token that counts or a stray character:
`load_evaluateNext`. Only the end of the text, a word that asks to quit and a stream that fails may
leave as much as there was.
-/

namespace DeskCalculator

namespace TokenStream

open Grammar

variable {size : LineReader → Nat} (shrinks : LineReader.Shrinks size) (symbols : SymbolTable)
include shrinks

theorem load_nextOfStatement (s : TokenStream) :
    (nextOfStatement symbols s).2.load size + spent (nextOfStatement symbols s).1 ≤
      s.load size := by
  fun_induction nextOfStatement symbols s with
  | case1 s s' h ih =>
    have := load_next shrinks symbols s
    rw [h] at this
    simp only [spent, weight] at this
    omega
  | case2 s h =>
    exact load_next shrinks symbols s

omit shrinks in
theorem pushedBack_nextOfStatement (s : TokenStream) :
    (nextOfStatement symbols s).2.pushedBack = none := by
  fun_induction nextOfStatement symbols s with
  | case1 s s' h ih => exact ih
  | case2 s h => exact pushedBack_next symbols s

omit shrinks in
theorem nextOfStatement_ne_equals (s : TokenStream) :
    (nextOfStatement symbols s).1 ≠ .ok (.operator .equals) := by
  fun_induction nextOfStatement symbols s with
  | case1 s s' h ih => exact ih
  | case2 s h => exact fun he => h _ (Prod.ext he rfl)

/-- What an outcome has used up at least: a token or a stray character, unless it is the end. -/
def spentOn : Except Error Outcome → Nat
  | .ok (.value _) => 1
  | .ok .quit => 0
  | .error e => if e.isFatal then 0 else 1

theorem load_outcome (s : TokenStream) :
    (outcome.onStream symbols s).2.load size + spentOn (outcome.onStream symbols s).1 ≤
      s.load size := by
  have hl := load_nextOfStatement shrinks symbols s
  have hp := pushedBack_nextOfStatement symbols s
  have he := nextOfStatement_ne_equals symbols s
  rw [outcome, Evaluating.onStream_bind]
  cases hn : nextOfStatement symbols s with | mk r s₁
  rw [hn] at hl hp he
  cases r with
  | error e =>
    rw [Reading.bind_of_error hn]
    exact hl
  | ok token =>
    rw [Reading.bind_of_ok hn]
    simp only [spent] at hl
    split
    · exact Nat.le_trans (Nat.le_add_right _ _) hl
    · next hq =>
      have hw : weight token = 1 := by
        unfold weight
        split <;> simp_all [Token.isQuit]
      have hs := takes_statement shrinks symbols { s₁ with pushedBack := some token }
      unfold Takes at hs
      rw [next_putBack hp] at hs
      obtain ⟨r, s₂, hr, hb⟩ := hs
      have hr : statement.onStream symbols { s₁ with pushedBack := some token } = (r, s₂) :=
        Option.some.inj hr
      rw [Evaluating.onStream_lift_bind, Reading.bind_of_ok (putBack_of_none hp),
        Evaluating.onStream_map Outcome.value hr]
      cases r with
      | error e =>
        simp only [Within, spentOn, Except.map] at hb ⊢
        split <;> omega
      | ok value =>
        simp only [Within, Except.map, spentOn] at hb ⊢
        omega

end TokenStream

namespace Calculator

open TokenStream

theorem load_recover (c : Calculator) :
    c.recover.2.stream.load LineReader.characters ≤ c.stream.load LineReader.characters :=
  load_skipPast .equals c.stream

theorem load_evaluateNext {size : LineReader → Nat} (shrinks : LineReader.Shrinks size)
    (c : Calculator) :
    c.evaluateNext.2.stream.load size + spentOn c.evaluateNext.1 ≤ c.stream.load size :=
  load_outcome shrinks c.symbols c.stream

end Calculator

end DeskCalculator
