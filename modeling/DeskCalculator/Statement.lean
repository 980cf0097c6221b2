import DeskCalculator.Grammar.Fuel

/-!
# Statements

A statement is an expression, or a declaration that gives the value of one to a new name. The names are
a table that statements share: `declare` is the one action that changes it, and a declaration comes to
that last, behind everything in it that can fail.
-/

namespace DeskCalculator

/-- An action on a stream and on the table that its words are looked up in. A failure leaves both as
they are where the action stopped. -/
abbrev Evaluating := ExceptT Error (StateT SymbolTable (StateM TokenStream))

namespace Evaluating

variable {α β : Type}

/-- A reading with the table of the moment, which cannot change it. -/
def reading (action : SymbolTable → Reading α) : Evaluating α := fun symbols s =>
  match action symbols s with
  | (r, s') => ((r, symbols), s')

instance : MonadLift Reading Evaluating := ⟨fun action => reading fun _ => action⟩

/-- Gives a new name its value. -/
def declare (name : String) (value : Binary64) (line : Nat) : Evaluating Binary64 := fun symbols s =>
  match symbols.declare name value with
  | .ok symbols' => ((.ok value, symbols'), s)
  | .error cause => ((.error (.statement cause line), symbols), s)

/-- What an action does to the stream alone. -/
def onStream (action : Evaluating α) (symbols : SymbolTable) : Reading α := fun s =>
  ((action symbols s).1.1, (action symbols s).2)

section
variable {symbols symbols' : SymbolTable} {s s' : TokenStream} {read : SymbolTable → Reading α}
  {action : Evaluating α} {f : α → Evaluating β}

theorem bind_ok {a : α} (h : action symbols s = ((.ok a, symbols'), s')) :
    (action >>= f) symbols s = f a symbols' s' := by
  simp only [bind, ExceptT.bind, ExceptT.mk, ExceptT.bindCont, StateT.bind, h]

theorem bind_error {e : Error} (h : action symbols s = ((.error e, symbols'), s')) :
    (action >>= f) symbols s = ((.error e, symbols'), s') := by
  simp only [bind, ExceptT.bind, ExceptT.mk, ExceptT.bindCont, StateT.bind, h]
  rfl

theorem reading_eq {r : Except Error α} (h : read symbols s = (r, s')) :
    reading read symbols s = ((r, symbols), s') := by
  rw [reading, h]

theorem bind_of_ok {a : α} (h : read symbols s = (.ok a, s')) :
    (reading read >>= f) symbols s = f a symbols s' := bind_ok (reading_eq h)

theorem bind_of_error {e : Error} (h : read symbols s = (.error e, s')) :
    (reading read >>= f) symbols s = ((.error e, symbols), s') := bind_error (reading_eq h)

/-- A reading leaves the table to what follows. -/
theorem onStream_bind (read : SymbolTable → Reading α) (f : α → Evaluating β)
    (symbols : SymbolTable) :
    (reading read >>= f).onStream symbols = read symbols >>= fun a => (f a).onStream symbols := by
  funext s
  cases h : read symbols s with | mk r s'
  cases r with
  | ok a =>
    rw [Reading.bind_of_ok h, onStream, bind_of_ok h]
    rfl
  | error e => rw [Reading.bind_of_error h, onStream, bind_of_error h]

theorem onStream_lift_bind (action : Reading α) (f : α → Evaluating β) (symbols : SymbolTable) :
    onStream (liftM action >>= f) symbols = action >>= fun a => (f a).onStream symbols :=
  onStream_bind (fun _ => action) f symbols

theorem map_eq {r : Except Error α} (g : α → β) (h : action symbols s = ((r, symbols'), s')) :
    (action >>= fun a => pure (g a)) symbols s = ((r.map g, symbols'), s') := by
  cases r with
  | ok a => exact bind_ok h
  | error e => exact bind_error h

theorem onStream_map {r : Except Error α} (g : α → β)
    (h : action.onStream symbols s = (r, s')) :
    onStream (action >>= fun a => pure (g a)) symbols s = (r.map g, s') := by
  cases h
  rw [onStream, map_eq g rfl]

theorem onStream_declare (name : String) (value : Binary64) (line : Nat) (symbols : SymbolTable) :
    (declare name value line).onStream symbols =
      TokenStream.check line ((symbols.declare name value).map fun _ => value) := by
  funext s
  unfold onStream declare
  cases symbols.declare name value <;> rfl

end

end Evaluating

namespace TokenStream

open Grammar Evaluating

/-- Reads `name = expression` and declares the name. A word that has a value already is no name. -/
def declaration : Evaluating Binary64 := do
  match ← reading next with
  | .identifier name =>
    let token ← reading next
    if token.isOperator .equals then
      let value ← reading expression
      let line ← currentLine
      declare name value line
    else
      fail (.expectedAssignment name)
  | token => reject token .expectedName

/-- Reads a statement. The token that ends it is put back. -/
def statement : Evaluating Binary64 := do
  match ← reading next with
  | .keyword .declare => declaration
  | token =>
    putBack token
    reading expression

/-! ## Statements use their first token up -/

section
variable {size : LineReader → Nat} (shrinks : LineReader.Shrinks size) (symbols : SymbolTable)
include shrinks

theorem ends_declaration (s : TokenStream) :
    Keeps size (liftM (declaration.onStream symbols)) s := by
  unfold Keeps
  rw [declaration, onStream_bind, lift_bind]
  refine ends_bind (ends_next shrinks symbols) (Nat.le_refl _) fun t s₁ h₁ => ?_
  split
  · rw [onStream_bind, lift_bind]
    refine ends_bind (ends_next shrinks symbols) (by omega) fun t s₂ h₂ => ?_
    split
    · rw [onStream_bind, lift_bind]
      refine ends_bind ((takes_expression symbols shrinks s₂).ends shrinks) (by omega)
        fun value s₃ h₃ => ?_
      rw [onStream_lift_bind, lift_bind]
      refine ends_bind ends_currentLine (by omega) fun line s₄ h₄ => ?_
      rw [onStream_declare]
      exact ends_check (by omega)
    · exact ends_fail _ (by omega)
  · exact ends_reject _ (by omega)

theorem takes_statement (s : TokenStream) :
    Takes size symbols (liftM (statement.onStream symbols)) s := by
  rw [statement, onStream_bind, lift_bind]
  refine takes_next shrinks symbols fun token s₁ h₁ hb => ?_
  split
  · exact (ends_declaration shrinks symbols s₁).mono (Nat.le_refl _) (by simp [weight])
  · rw [onStream_lift_bind, lift_bind]
    have h := takes_expression symbols shrinks { s₁ with pushedBack := some token }
    unfold Takes at h
    rw [next_putBack hb] at h
    have hp : (liftM (putBack token) : Attempt Unit) s₁ =
        some (.ok (), { s₁ with pushedBack := some token }) := congrArg some (putBack_of_none hb)
    unfold Ends
    rw [bind_ok hp]
    exact h

end

end TokenStream

end DeskCalculator
