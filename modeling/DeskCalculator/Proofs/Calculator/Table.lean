import DeskCalculator.Proofs.Calculator.Causes
import DeskCalculator.Proofs.Grammar.Meaning
import DeskCalculator.Proofs.Programs.Spelling

/-!
# How the table of a calculator grows

A declaration that comes to a value adds its name with that value, at the end and as nothing else; no
other call changes the table. So what has a value once has it in the rest of the session.
-/

namespace DeskCalculator

open TokenStream

variable {symbols : SymbolTable}

/-- A name that was read with an empty slot is spelled as one. -/
theorem name_of_next {s s' : TokenStream} {name : String} (hp : s.pushedBack = none)
    (h : next symbols s = (.ok (.identifier name), s')) : ∃ n : Name, n.text = name := by
  obtain ⟨l, hl, ht⟩ := ofLexeme_of_next hp h (by simp)
  obtain ⟨rfl, hfree, -⟩ := Piece.ofLexeme_eq_identifier.mp ht
  obtain ⟨text, htext⟩ := LineReader.exists_itemsOf_of_mem hl
  obtain ⟨cs, spelling, rest, hscan⟩ := exists_scan?_of_mem htext
  obtain ⟨c, others, rfl, hc, hothers⟩ := Item.word_of_scan? hscan
  exact ⟨⟨c, others, hc, hothers, hfree⟩, rfl⟩

namespace Calculator

/-- Evaluating consumes a declaration of the name and comes to the value of its expression. -/
def Declares (c : Calculator) (name : String) (value : Binary64) : Prop :=
  c.evaluateNext.1 = .ok (.value value) ∧
    ∃ s₀ tree ws, Opens c.symbols c.stream s₀ ∧ Derives (.tokens .number) (.chain .sum) tree ws ∧
      tree.HasValue value ∧ Passes c.symbols s₀
        ([.keyword .declare, .identifier name, .operator .equals] ++ ws) c.evaluateNext.2.stream

/-- The second table is the first one with a new name behind all others. -/
structure Extends (table table' : SymbolTable) (name : String) (value : Binary64) : Prop where
  undeclared : table.find? name = none
  spelled : ∃ n : Name, n.text = name
  entries : table'.entries = table.entries ++ [(name, value)]

section
variable {c : Calculator} {name : String} {value : Binary64}

theorem declares_of_declared {s₀ s₁ s' : TokenStream} {table : SymbolTable} (ho : Opens c.symbols c.stream s₀)
    (hd : Delivers c.symbols s₀ [.keyword .declare, .identifier name, .operator .equals] s₁)
    (h : Reads c.symbols (.chain .sum) s₁ (.ok value) s') (hv : c.symbols.declare name value = .ok table) :
    c.Declares name value := by
  obtain ⟨tree, ws, hder, hval, -, hs⟩ := sound_of_reads h value rfl
  unfold Declares
  rw [evaluateNext_eq ho (.declared hd h hv)]
  exact ⟨rfl, s₀, tree, ws, ho, hder, hasValue_iff.mpr hval, (Passes.of_delivers hd).trans hs⟩

theorem extends_of_declares (h : c.Declares name value) :
    Extends c.symbols c.evaluateNext.2.symbols name value := by
  obtain ⟨hr, s₀, tree, ws, ho, -, -, s₃, hd, -⟩ := h
  obtain ⟨s₁, hd, -⟩ := Delivers.append_iff.mp hd
  obtain ⟨s₂, s₃, hdecl, hname, -⟩ := hd.triple
  cases hce : c.evaluateNext with
  | mk r c' =>
    rw [hce] at hr
    subst hr
    generalize hr : (Except.ok (.value value) : Except Error Outcome) = result at hce
    cases evaluates_of_evaluateNext ho hce with
    | @expression token _ r _ ht _ hn _ =>
      rw [hdecl] at ht
      cases ht
      exact absurd rfl hn
    | @declared name' _ value' _ _ hd' _ hv =>
      cases hr
      obtain ⟨s₄, s₅, hdecl', hname', -⟩ := hd'.triple
      rw [hdecl] at hdecl'
      cases hdecl'
      rw [hname] at hname'
      cases hname'
      obtain ⟨hnone, hentries⟩ := SymbolTable.of_declare hv
      exact ⟨hnone, name_of_next (pushedBack_of_next hdecl) hname, hentries⟩
    | _ => cases hr

theorem symbols_of_not_declares (h : ∀ name value, ¬ c.Declares name value) :
    c.evaluateNext.2.symbols = c.symbols := by
  obtain ⟨s₀, ho⟩ := exists_opens c.symbols c.stream
  cases hce : c.evaluateNext with
  | mk r c' =>
    cases evaluates_of_evaluateNext ho hce with
    | declared hd hr hv => exact absurd (declares_of_declared ho hd hr hv) (h _ _)
    | _ => rfl

end

end Calculator

/-! ## Where a name is declared

`declare` is the last thing that a declaration does: all that can fail stands before it, and readings leave the
table alone. -/

namespace Evaluating

variable {α β : Type}

/-- Where the action fails, the table is as it was. -/
def Atomic (action : Evaluating α) : Prop :=
  ∀ symbols s e, (action symbols s).1.1 = .error e → (action symbols s).1.2 = symbols

theorem atomic_reading (read : SymbolTable → Reading α) : (reading read).Atomic := fun _ _ _ _ => rfl

theorem atomic_pure (a : α) : Atomic (pure a) := fun _ _ _ _ => rfl

theorem atomic_declare (name : String) (value : Binary64) (line : Nat) : (declare name value line).Atomic := by
  intro symbols s e h
  unfold declare at h ⊢
  cases hd : symbols.declare name value with
  | ok symbols' =>
    rw [hd] at h
    cases h
  | error cause => rfl

/-- Readings may come first. -/
theorem Atomic.bind_reading {read : SymbolTable → Reading α} {f : α → Evaluating β} (hf : ∀ a, (f a).Atomic) :
    (reading read >>= f).Atomic := by
  intro symbols s e h
  cases hr : read symbols s with | mk r s'
  cases r with
  | ok a =>
    rw [bind_of_ok hr] at h ⊢
    exact hf a _ _ _ h
  | error e' => rw [bind_of_error hr]

/-- Nothing that can fail may follow. -/
theorem Atomic.map {action : Evaluating α} (h : action.Atomic) (g : α → β) :
    Atomic (action >>= fun a => pure (g a)) := by
  intro symbols s e he
  cases ha : action symbols s with | mk p s'
  obtain ⟨r, symbols'⟩ := p
  have hsame := h symbols s
  rw [map_eq g ha] at he ⊢
  rw [ha] at hsame
  cases r with
  | ok a => cases he
  | error e' => exact hsame e' rfl

end Evaluating

namespace TokenStream

open Evaluating

theorem atomic_declaration : declaration.Atomic := by
  refine Atomic.bind_reading fun token => ?_
  split
  · refine Atomic.bind_reading fun token => ?_
    split
    · refine Atomic.bind_reading fun value => ?_
      exact Atomic.bind_reading fun line => atomic_declare _ value line
    · exact atomic_reading _
  · exact atomic_reading _

theorem atomic_statement : statement.Atomic := by
  refine Atomic.bind_reading fun token => ?_
  split
  · exact atomic_declaration
  · exact Atomic.bind_reading fun _ => atomic_reading _

theorem atomic_outcome : outcome.Atomic := by
  refine Atomic.bind_reading fun token => ?_
  split
  · exact atomic_pure _
  · exact Atomic.bind_reading fun _ => atomic_statement.map _

end TokenStream

namespace Calculator

theorem symbols_of_error {c : Calculator} {e : Error} (h : c.evaluateNext.1 = .error e) :
    c.evaluateNext.2.symbols = c.symbols := atomic_outcome c.symbols c.stream e h

/-! ## Whole sessions -/

theorem find?_of_extends {table table' : SymbolTable} {name n : String} {value v : Binary64}
    (h : Extends table table' name value) (hn : table.find? n = some v) : table'.find? n = some v := by
  unfold SymbolTable.find? at hn ⊢
  rw [h.entries, List.lookup_append, hn]
  rfl

theorem find?_evaluateNext {c : Calculator} {n : String} {v : Binary64} (h : c.symbols.find? n = some v) :
    c.evaluateNext.2.symbols.find? n = some v := by
  by_cases hd : ∃ name value, c.Declares name value
  · obtain ⟨name, value, hd⟩ := hd
    exact find?_of_extends (extends_of_declares hd) h
  · rw [symbols_of_not_declares fun name value hc => hd ⟨name, value, hc⟩]
    exact h

theorem find?_after {c : Calculator} {n : String} {v : Binary64} (calls : List Call)
    (h : c.symbols.find? n = some v) : (c.after calls).symbols.find? n = some v := by
  induction calls generalizing c with
  | nil => exact h
  | cons call calls ih =>
    cases call with
    | evaluate => exact ih (c := c.evaluateNext.2) (find?_evaluateNext h)
    | recover => exact ih (c := c.recover.2) h

theorem bits_after {c : Calculator} {name : String} {bits : UInt64} (calls : List Call)
    (h : (c.symbols.find? name).map Binary64.toBits = some bits) :
    ((c.after calls).symbols.find? name).map Binary64.toBits = some bits := by
  obtain ⟨value, hv, rfl⟩ := Option.map_eq_some_iff.mp h
  rw [find?_after calls hv, Option.map_some]

/-- The bits that a name stands for are there to stay, and a table changes only where a declaration has come to a
value: then it has that one entry more. Whatever fails, and wherever in a declaration, the table is as it was. -/
theorem table_grows (c : Calculator) :
    (∀ calls name bits, (c.symbols.find? name).map Binary64.toBits = some bits →
      ((c.after calls).symbols.find? name).map Binary64.toBits = some bits) ∧
    c.recover.2.symbols = c.symbols ∧
    (∀ name value, c.Declares name value → Extends c.symbols c.evaluateNext.2.symbols name value) ∧
    ((∀ name value, ¬ c.Declares name value) → c.evaluateNext.2.symbols = c.symbols) ∧
    ∀ e, c.evaluateNext.1 = .error e → c.evaluateNext.2.symbols = c.symbols :=
  ⟨fun calls _ _ => bits_after calls, rfl, fun _ _ => extends_of_declares, symbols_of_not_declares,
    fun _ => symbols_of_error⟩

end Calculator

end DeskCalculator
