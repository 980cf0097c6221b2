import DeskCalculator.Proofs.Calculator.Held
import DeskCalculator.Proofs.Grammar.Completeness
import DeskCalculator.Proofs.Stream.Pieces
import DeskCalculator.Proofs.SymbolTable.Environment

/-!
# Declared names that are not found

A word becomes a token when it is reached, and the token that ends a declaration is reached before the
name is declared. Where it is that very name it stays a name without a value in the slot, and the next
evaluation fails for it or quits. `misreads_iff`: nothing else does that.
-/

namespace DeskCalculator

open TokenStream

variable {symbols : SymbolTable}

/-- No name with a value is held as a name without one. -/
def TokenStream.Fresh (symbols : SymbolTable) (s : TokenStream) : Prop :=
  ∀ name, s.pushedBack = some (.identifier name) → symbols.find? name = none

section
variable {s s' : TokenStream} {name : String}

theorem fresh_of_none (h : s.pushedBack = none) : Fresh symbols s := by
  intro name hn
  rw [h] at hn
  cases hn

/-- The token is no name with a value. -/
def SymbolTable.Valueless (symbols : SymbolTable) (token : Token) : Prop :=
  ∀ name, token = .identifier name → symbols.find? name = none

theorem yields_valueless (symbols : SymbolTable) : symbols.Yields symbols.Valueless := by
  rintro s token s' hp h name rfl
  obtain ⟨l, -, ht⟩ := ofLexeme_of_next hp h (by simp)
  exact (Piece.ofLexeme_eq_identifier.mp ht).2.2

theorem fresh_iff : Fresh symbols s ↔ Holds symbols.Valueless s := by
  constructor
  · rintro h token ht name rfl
    exact h name ht
  · intro h name hn
    exact h _ hn name rfl

theorem find?_of_next (hf : Fresh symbols s) (h : next symbols s = (.ok (.identifier name), s')) :
    symbols.find? name = none :=
  property_of_next (yields_valueless symbols) (fresh_iff.mp hf) h name rfl

end

theorem invariant_fresh (symbols : SymbolTable) : Invariant symbols (Fresh symbols) where
  taken _ ht := fresh_of_none (pushedBack_of_next ht)
  looked hs ht := by
    intro name he
    cases he
    exact find?_of_next hs ht

/-! ## A held name decides what happens next -/

namespace Calculator

/-- A name with a value is held as a name without one. -/
def Stale (c : Calculator) (name : String) : Prop :=
  c.stream.pushedBack = some (.identifier name) ∧ c.symbols.find? name ≠ none

/-- Evaluating takes a name that is declared for one that is not: it fails for it, or quits at it. -/
def Misreads (c : Calculator) (name : String) : Prop :=
  c.evaluateNext.2.symbols.find? name ≠ none ∧
    ((∃ line, c.evaluateNext.1 = .error (.statement (.undefinedVariable name) line)) ∨
      c.evaluateNext.1 = .ok .quit ∧ (nextOfStatement c.symbols c.stream).1 = .ok (.identifier name))

theorem not_fresh {c : Calculator} (h : ¬ Fresh c.symbols c.stream) : ∃ name, c.Stale name := by
  simp only [Fresh, Classical.not_forall] at h
  obtain ⟨name, hp, hf⟩ := h
  exact ⟨name, hp, hf⟩

theorem opens_of_held (symbols : SymbolTable) {s : TokenStream} {name : String}
    (h : s.pushedBack = some (.identifier name)) :
    Opens symbols s s ∧ ∃ s₁, next symbols s = (.ok (.identifier name), s₁) := by
  have hn : next symbols s = _ := next_of_held h
  exact ⟨⟨⟨0, .nil⟩, by simp [hn]⟩, _, hn⟩

theorem evaluateNext_of_held {c : Calculator} {name : String}
    (h : c.stream.pushedBack = some (.identifier name)) :
    c.evaluateNext.2.symbols = c.symbols ∧ c.evaluateNext.2.stream.pushedBack = none ∧
      (nextOfStatement c.symbols c.stream).1 = .ok (.identifier name) ∧
      (c.evaluateNext.1 = .ok .quit ∨
        ∃ line, c.evaluateNext.1 = .error (.statement (.undefinedVariable name) line)) := by
  obtain ⟨ho, s₁, hn⟩ := opens_of_held c.symbols h
  have hf : (nextOfStatement c.symbols c.stream).1 = .ok (.identifier name) := by
    rw [nextOfStatement_eq ho, hn]
  by_cases hq : (Token.identifier name).isQuit = true
  · have he := evaluateNext_eq ho (.quit hn hq)
    rw [he]
    exact ⟨rfl, pushedBack_of_next hn, hf, Or.inl rfl⟩
  · have hr : Reads c.symbols (.chain .sum) c.stream (.error (.statement (.undefinedVariable name) s₁.line)) s₁ :=
      .chain_fails (.chain_fails (.name hn))
    have he := evaluateNext_eq ho (.expression hn (by simpa using hq) (by simp) hr)
    rw [he]
    exact ⟨rfl, pushedBack_of_next hn, hf, Or.inr ⟨_, rfl⟩⟩

theorem find?_of_blame {s s' : TokenStream} {name : String} {line : Nat} (hf : Fresh symbols s)
    (h : Blame symbols s (.statement (.undefinedVariable name) line) s') : symbols.find? name = none := by
  cases h with
  | unread ht =>
    rcases of_next_error ht with ⟨c, -, he⟩ | ⟨-, -, reason, -, he⟩
    · cases he
    · cases he
  | name ht => exact find?_of_next hf ht
  | arithmetic hc => cases hc

theorem find?_of_evaluates {s : TokenStream} {name : String} {line : Nat} {c' : Calculator}
    (hf : Fresh symbols s)
    (h : Evaluates symbols s (.error (.statement (.undefinedVariable name) line)) c') :
    c'.symbols = symbols ∧ symbols.find? name = none := by
  obtain ⟨hfault, hs⟩ := fault_of_evaluates h
  refine ⟨hs, ?_⟩
  cases hfault with
  | blame hd hm hb =>
    have hI := invariant_fresh symbols
    exact find?_of_blame (hI.of_moves (hI.of_delivers hf hd) hm) hb
  | redeclared _ hv => cases SymbolTable.cause_of_declare hv

theorem symbols_of_quit {s : TokenStream} {c' : Calculator} (h : Evaluates symbols s (.ok .quit) c') :
    c'.symbols = symbols := by
  generalize hr : (Except.ok .quit : Except Error Outcome) = result at h
  cases h with
  | quit => rfl
  | expression => rfl
  | _ => cases hr

theorem misreads_iff_stale {c : Calculator} {name : String} : c.Misreads name ↔ c.Stale name := by
  -- No table changes in a call that fails or quits: what is missed before it is missed behind it.
  constructor
  · rintro ⟨hd, h⟩
    by_cases hf : Fresh c.symbols c.stream
    · exfalso
      obtain ⟨s₀, ho⟩ := exists_opens c.symbols c.stream
      have hf₀ := (invariant_fresh c.symbols).of_opens hf ho
      cases hce : c.evaluateNext with
      | mk r c' =>
        have he := evaluates_of_evaluateNext ho hce
        simp only [hce] at hd h
        rcases h with ⟨line, rfl⟩ | ⟨rfl, hn⟩
        · obtain ⟨hs, hnone⟩ := find?_of_evaluates hf₀ he
          rw [hs] at hd
          exact hd hnone
        · rw [nextOfStatement_eq ho] at hn
          have hnone := find?_of_next hf₀ (Prod.ext hn rfl)
          rw [symbols_of_quit he] at hd
          exact hd hnone
    · obtain ⟨w, hw⟩ := not_fresh hf
      obtain ⟨-, -, hn, he⟩ := evaluateNext_of_held hw.1
      rcases h with ⟨line, h⟩ | ⟨-, hn'⟩
      · rcases he with he | ⟨line', he⟩
        · rw [he] at h
          cases h
        · rw [he] at h
          cases h
          exact hw
      · rw [hn] at hn'
        cases hn'
        exact hw
  · rintro ⟨hp, hd⟩
    obtain ⟨hs, -, hn, he⟩ := evaluateNext_of_held hp
    refine ⟨hs ▸ hd, ?_⟩
    rcases he with he | he
    · exact Or.inr ⟨he, hn⟩
    · exact Or.inl he

/-! ## Where a held name comes from -/

/-- A declaration of a name comes next, its expression has a value, and right behind it, with no
terminator between them, stands the same name. -/
def RepeatsName (c : Calculator) (name : String) : Prop :=
  ∃ s₀ tree ws value s₁, Opens c.symbols c.stream s₀ ∧ Derives (.tokens .number) (.chain .sum) tree ws ∧
    tree.evaluate .ok = .ok value ∧ Delivers c.symbols s₀
      ([.keyword .declare, .identifier name, .operator .equals] ++ (ws ++ [.identifier name])) s₁

/-- A declaration is the only statement that can leave a name with a value held: its own. -/
theorem repeatsName_of_stale {c : Calculator} {name : String} (h : c.evaluateNext.2.Stale name) :
    c.RepeatsName name := by
  obtain ⟨hp, hd⟩ := h
  have hf : Fresh c.symbols c.stream := by
    apply Classical.byContradiction
    intro hf
    obtain ⟨w, hw⟩ := not_fresh hf
    obtain ⟨-, hnone, -⟩ := evaluateNext_of_held hw.1
    rw [hp] at hnone
    cases hnone
  obtain ⟨s₀, ho⟩ := exists_opens c.symbols c.stream
  have hI := invariant_fresh c.symbols
  have hf₀ := hI.of_opens hf ho
  cases hce : c.evaluateNext with
  | mk r c' =>
    rw [hce] at hp hd
    simp only at hp hd
    cases evaluates_of_evaluateNext ho hce with
    | unread ht | quit ht | name_unread _ ht | equals_unread _ ht | equals_missing _ ht =>
      rw [pushedBack_of_next ht] at hp
      cases hp
    | expression _ _ _ h =>
      exact absurd (hI.of_reads hf₀ h (by simp) name hp) hd
    | name_missing hd' ht _ =>
      exact absurd (hI.of_move (hI.of_delivers hf₀ hd') (move_abandoned ht) name hp) hd
    | value_fails hd' h | redeclared hd' h =>
      exact absurd (hI.of_reads (hI.of_delivers hf₀ hd') h (by simp) name hp) hd
    | @declared name' s₁ value s' symbols' hd' h hv =>
      have hnone := hI.of_reads (hI.of_delivers hf₀ hd') h (by simp) name hp
      have hname : name = name' := by
        apply Classical.byContradiction
        intro hne
        rw [SymbolTable.find?_declare hv, if_neg hne] at hd
        exact hd hnone
      subst hname
      obtain ⟨e, ws, hder, hval, -, hs⟩ := sound_of_reads h value rfl
      have hclosed := hs.closed (next_of_held hp)
      exact ⟨s₀, e, ws, value, _, ho, hder, hval, Delivers.append_iff.mpr ⟨s₁, hd', hclosed⟩⟩

theorem stale_of_repeatsName {c : Calculator} {name : String} (h : c.RepeatsName name) :
    c.evaluateNext.2.Stale name := by
  obtain ⟨s₀, tree, ws, value, s₁, ho, hder, hval, hs⟩ := h
  obtain ⟨s₂, hd, hs⟩ := Delivers.append_iff.mp hs
  obtain ⟨s₃, hs, hname⟩ := Delivers.append_iff.mp hs
  replace hname := Delivers.single_iff.mp hname
  have hend : (Phrase.chain .sum : Phrase Binary64).EndsBefore (next c.symbols s₃).1 := by
    rw [hname]
    exact Phrase.endsBefore_token (by simp)
  have hc := comes_of_derives resolves_number hder (.chain .sum) hs hend
  rw [hval] at hc
  obtain ⟨s', hr, hn⟩ := hc
  have hp := eq_holding_of_reads hr (hn.trans hname)
  have hnone : c.symbols.find? name = none := by
    obtain ⟨s₅, s₆, hdecl, hid, -⟩ := hd.triple
    exact find?_of_next (fresh_of_none (pushedBack_of_next hdecl)) hid
  obtain ⟨symbols', hv⟩ := SymbolTable.declare_of_find? hnone value
  rw [evaluateNext_eq ho (.declared hd hr hv)]
  refine ⟨by rw [hp]; rfl, ?_⟩
  simp [SymbolTable.find?_declare hv]

/-! ## Calls of a calculator -/

/-- The two functions that a caller has. -/
inductive Call where
  | evaluate
  | recover

def ofSource (source : Source) (symbols : SymbolTable) : Calculator := ⟨.ofSource source, symbols⟩

/-- The calculator that some calls leave behind, whatever they answer. -/
def after (c : Calculator) (calls : List Call) : Calculator :=
  calls.foldl (fun c call => match call with
    | .evaluate => c.evaluateNext.2
    | .recover => c.recover.2) c

theorem after_append (c : Calculator) (calls : List Call) (call : Call) :
    c.after (calls ++ [call]) = (c.after calls).after [call] := by
  simp [after]

/-- What reading and discarding keep is true whatever is called. -/
theorem invariant_after {I : TokenStream → Prop} (hI : ∀ symbols, Invariant symbols I)
    (hskip : ∀ s, I s → I (skipPast .equals s).2) {c : Calculator} (h : I c.stream) (calls : List Call) :
    I (c.after calls).stream := by
  induction calls generalizing c with
  | nil => exact h
  | cons call calls ih =>
    cases call with
    | evaluate => exact ih (c := c.evaluateNext.2) ((hI _).of_evaluateNext h)
    | recover => exact ih (c := c.recover.2) (hskip _ h)

/-- A declared name is misread exactly where the last call has evaluated its declaration and the name
stood right behind that. -/
theorem misreads_iff (source : Source) (symbols : SymbolTable) (calls : List Call) (name : String) :
    ((ofSource source symbols).after calls).Misreads name ↔ ∃ earlier, calls = earlier ++ [.evaluate] ∧
      ((ofSource source symbols).after earlier).RepeatsName name := by
  rw [misreads_iff_stale]
  constructor
  · intro h
    rcases List.eq_nil_or_concat calls with rfl | ⟨earlier, call, rfl⟩
    · cases h.1
    · rw [List.concat_eq_append, after_append] at h
      cases call with
      | evaluate => exact ⟨earlier, by simp, repeatsName_of_stale h⟩
      | recover =>
        have hp := h.1
        have hnone := pushedBack_skipPast .equals ((ofSource source symbols).after earlier).stream
        rw [show (((ofSource source symbols).after earlier).after [.recover]).stream.pushedBack = none
          from hnone] at hp
        cases hp
  · rintro ⟨earlier, rfl, h⟩
    rw [after_append]
    exact stale_of_repeatsName h

theorem misreads_repeated_name :
    ((ofSource ⟨["let a = 1 a =".toList], none⟩ .constants).after [.evaluate]).Misreads "a" := by
  refine ⟨?_, Or.inl ⟨1, ?_⟩⟩
  · decide +kernel
  · decide +kernel

end Calculator

end DeskCalculator
