import DeskCalculator.Proofs.Calculator.Invariants

/-!
# What the slot holds, and what statements fail for

A token is put back only where `next` has just delivered it. So what is true of every token that the text
delivers stays true of the token in the slot, whatever is evaluated. A statement fails where a reading in it
does, or for what is missing or wrong in a declaration.
-/

namespace DeskCalculator

open TokenStream

/-- The token that was put back, if there is one, has the property. -/
def TokenStream.Holds (P : Token → Prop) (s : TokenStream) : Prop :=
  ∀ token, s.pushedBack = some token → P token

/-- What comes from the text and not from the slot has the property. -/
def SymbolTable.Yields (symbols : SymbolTable) (P : Token → Prop) : Prop :=
  ∀ s token s', s.pushedBack = none → next symbols s = (.ok token, s') → P token

variable {P : Token → Prop} {symbols : SymbolTable} {s s' : TokenStream}

theorem holds_of_none (h : s.pushedBack = none) : Holds P s := by
  intro token ht
  rw [h] at ht
  cases ht

section
variable (hP : symbols.Yields P) (hs : Holds P s)
include hP hs

theorem property_of_next {token : Token} (h : next symbols s = (.ok token, s')) : P token := by
  cases hp : s.pushedBack with
  | none => exact hP s token s' hp h
  | some held =>
    cases (next_of_held hp).symm.trans h
    exact hs _ hp

theorem property_of_delivers {ws : List Token} (h : Delivers symbols s ws s') : ∀ token ∈ ws, P token := by
  induction h with
  | nil => simp
  | cons ht _ ih =>
    intro token hm
    rcases List.mem_cons.mp hm with rfl | hm
    · exact property_of_next hP hs ht
    · exact ih (holds_of_none (pushedBack_of_next ht)) token hm

end

theorem invariant_holds (hP : symbols.Yields P) : Invariant symbols (Holds P) where
  taken _ ht := holds_of_none (pushedBack_of_next ht)
  looked hs ht := by
    intro token he
    cases he
    exact property_of_next hP hs ht

/-- What an evaluation fails for. -/
inductive Fault (symbols : SymbolTable) (s : TokenStream) : Error → Prop where
  | blame {ws s₁ s₂ e s'} (hd : Delivers symbols s ws s₁) (hm : Moves symbols s₁ s₂) (hb : Blame symbols s₂ e s') :
      Fault symbols s e
  | name_missing {line} : Fault symbols s (.statement .expectedName line)
  | equals_missing {name s₁ line} (hd : Delivers symbols s [.keyword .declare, .identifier name] s₁) :
      Fault symbols s (.statement (.expectedAssignment name) line)
  | redeclared {name value cause s₁ line}
      (hd : Delivers symbols s [.keyword .declare, .identifier name, .operator .equals] s₁)
      (hv : symbols.declare name value = .error cause) : Fault symbols s (.statement cause line)

theorem fault_of_reads {part : Part} {ws : List Token} {s₁ : TokenStream} {e : Error} (hp : part ≠ .argument .equals)
    (hd : Delivers symbols s ws s₁) (h : Reads symbols part s₁ (.error e) s') : Fault symbols s e := by
  obtain ⟨s₂, hm, hb⟩ := (traced_of_reads h hp).2 e rfl
  exact .blame hd hm hb

/-- An evaluation that fails has not declared anything. -/
theorem fault_of_evaluates {e : Error} {c' : Calculator} (h : Evaluates symbols s (.error e) c') :
    Fault symbols s e ∧ c'.symbols = symbols := by
  generalize hr : (Except.error e : Except Error Outcome) = result at h
  cases h with
  | quit | declared => cases hr
  | unread ht =>
    cases hr
    exact ⟨.blame .nil .refl (.unread ht), rfl⟩
  | @expression _ _ r _ _ _ _ h =>
    cases r with
    | ok value => cases hr
    | error e' =>
      cases hr
      exact ⟨fault_of_reads (by simp) .nil h, rfl⟩
  | name_unread hd ht | equals_unread hd ht =>
    cases hr
    exact ⟨.blame hd .refl (.unread ht), rfl⟩
  | name_missing =>
    cases hr
    exact ⟨.name_missing, rfl⟩
  | equals_missing hd =>
    cases hr
    exact ⟨.equals_missing hd, rfl⟩
  | value_fails hd h =>
    cases hr
    exact ⟨fault_of_reads (by simp) hd h, rfl⟩
  | redeclared hd _ hv =>
    cases hr
    exact ⟨.redeclared hd hv, rfl⟩

end DeskCalculator
