import DeskCalculator.Proofs.Calculator.Statements
import DeskCalculator.Proofs.Grammar.Moves
import DeskCalculator.Proofs.Stream.Pieces

/-!
# Recovery is exact

No move of a reading changes what stands behind the next terminator. So the pieces that are left once a
failed statement has been discarded depend on nothing but the pieces there were before it: those behind
its terminator, and a declaration that got as far as its `=` has that one besides.
-/

namespace DeskCalculator

open TokenStream

variable {symbols : SymbolTable}

namespace Piece

/-- What follows the `k`-th occurrence of an operator; nothing if there are fewer. -/
def afterNth (op : Operator) : Nat → List Piece → List Piece
  | 0, pieces => pieces
  | k + 1, pieces => afterNth op k (after op pieces)

def isFreshWord (symbols : SymbolTable) : Piece → Bool
  | .item (.lexeme (.word name)) => (Keyword.ofWord? name).isNone && (symbols.find? name).isNone
  | _ => false

def opensDeclaration (symbols : SymbolTable) : List Piece → Bool
  | first :: second :: third :: _ =>
    first.token? symbols = some (.keyword .declare) && second.isFreshWord symbols && third.isOperator .equals
  | _ => false

theorem isFreshWord_iff {i : Item} : (item i).isFreshWord symbols = true ↔
    ∃ name, (item i).token? symbols = some (.identifier name) := by
  cases i with
  | stray c => simp [isFreshWord, token?]
  | lexeme l =>
    simp only [token?, Option.some.injEq, ofLexeme_eq_identifier]
    cases l with
    | number value => simp [isFreshWord]
    | operator op => simp [isFreshWord]
    | word name => simp [isFreshWord]

end Piece

/-! ## What stands behind the terminator -/

section
variable {s s' : TokenStream} {token : Token}

theorem after_of_take (ht : next symbols s = (.ok token, s')) (hn : token ≠ .operator .equals) :
    Piece.after .equals s.pieces = Piece.after .equals s'.pieces := by
  rcases of_next_ok ht with ⟨p, hs, hp⟩ | ⟨hs, hs', -⟩
  · have ho : p.isOperator .equals = false := by
      rw [Bool.eq_false_iff, ne_eq, @Piece.isOperator_iff_token? symbols, hp]
      simpa using hn
    rw [hs, Piece.after_cons ho]
  · rw [hs, hs']

theorem after_of_terminator (ht : next symbols s = (.ok (.operator .equals), s')) :
    Piece.after .equals s.pieces = s'.pieces := by
  rcases of_next_ok ht with ⟨p, hs, hp⟩ | ⟨-, -, he, -⟩
  · rw [hs, Piece.after_cons_of_isOperator (Piece.isOperator_iff_token?.mpr hp)]
  · cases he

theorem after_of_delivers {ws : List Token} (h : Delivers symbols s ws s') (hn : .operator .equals ∉ ws) :
    Piece.after .equals s.pieces = Piece.after .equals s'.pieces := by
  induction h with
  | nil => rfl
  | cons ht _ ih =>
    rw [List.mem_cons, not_or] at hn
    rw [after_of_take ht (Ne.symm hn.1), ih hn.2]

theorem after_of_move (h : Move symbols s s') :
    Piece.after .equals s.pieces = Piece.after .equals s'.pieces := by
  cases h with
  | take ht hn => exact after_of_take ht hn
  | @look token s₁ ht =>
    rw [pieces_holding (pushedBack_of_next ht)]
    by_cases hn : token = .operator .equals
    · subst hn
      rw [after_of_terminator ht, Piece.after_cons_of_isOperator (by simp [Piece.isOperator])]
    · rw [after_of_take ht hn, Piece.after_cons (by simp [Piece.isOperator, hn])]
  | fail ht =>
    rcases of_next_error ht with ⟨c, hs, -⟩ | ⟨hs, hs', -⟩
    · rw [hs, Piece.after_cons (by simp [Piece.isOperator])]
    · rw [hs, hs']

theorem after_of_moves (h : Moves symbols s s') :
    Piece.after .equals s.pieces = Piece.after .equals s'.pieces := by
  induction h with
  | refl => rfl
  | tail _ hm ih => exact ih.trans (after_of_move hm)

theorem pieces_of_opens {s₀ : TokenStream} (h : Opens symbols s s₀) :
    s₀.pieces = s.pieces.dropWhile (·.isOperator .equals) := by
  obtain ⟨⟨n, hd⟩, hn⟩ := h
  induction n generalizing s with
  | zero =>
    cases hd
    cases hs : s₀.pieces with
    | nil => rfl
    | cons p ps =>
      have hp : p.isOperator .equals = false := by
        rw [Bool.eq_false_iff, ne_eq, @Piece.isOperator_iff_token? symbols]
        intro ho
        obtain ⟨s', ht, -⟩ := next_of_pieces hs ho
        exact hn (by rw [ht])
      simp [hp]
  | succ n ih =>
    obtain ⟨s₁, ht, hr⟩ := Delivers.cons_iff.mp hd
    rw [ih hr]
    rcases of_next_ok ht with ⟨p, hs, hp⟩ | ⟨-, -, he, -⟩
    · rw [hs, List.dropWhile_cons_of_pos (Piece.isOperator_iff_token?.mpr hp)]
    · cases he

/-! ## Declarations -/

theorem opensDeclaration_iff : Piece.opensDeclaration symbols s.pieces = true ↔ ∃ name s',
    Delivers symbols s [.keyword .declare, .identifier name, .operator .equals] s' := by
  constructor
  · intro h
    unfold Piece.opensDeclaration at h
    split at h
    · next first second third rest hs =>
      simp only [Bool.and_eq_true, decide_eq_true_eq] at h
      obtain ⟨⟨h₁, h₂⟩, h₃⟩ := h
      obtain ⟨s₁, ht₁, hs₁, hb₁, -⟩ := next_of_pieces hs h₁
      rw [pieces_of_none hb₁] at hs₁
      obtain ⟨i, -, hi⟩ := List.mem_map.mp (hs₁ ▸ List.mem_cons_self : second ∈ _)
      subst hi
      obtain ⟨name, h₂⟩ := Piece.isFreshWord_iff.mp h₂
      rw [← pieces_of_none hb₁] at hs₁
      obtain ⟨s₂, ht₂, hs₂, -⟩ := next_of_pieces hs₁ h₂
      obtain ⟨s₃, ht₃, -⟩ := next_of_pieces hs₂ (Piece.isOperator_iff_token?.mp h₃)
      exact ⟨name, s₃, .cons ht₁ (.cons ht₂ (.single ht₃))⟩
    · cases h
  · rintro ⟨name, s', h⟩
    obtain ⟨s₁, s₂, ht₁, ht₂, ht₃⟩ := h.triple
    obtain ⟨p₁, hs₁, hp₁⟩ | ⟨-, -, he, -⟩ := of_next_ok ht₁
    · obtain ⟨p₂, hs₂, hp₂⟩ | ⟨-, -, he, -⟩ := of_next_ok ht₂
      · obtain ⟨p₃, hs₃, hp₃⟩ | ⟨-, -, he, -⟩ := of_next_ok ht₃
        · have hm : p₂ ∈ s₁.pieces := hs₂ ▸ List.mem_cons_self
          rw [pieces_of_none (pushedBack_of_next ht₁)] at hm
          obtain ⟨i, -, rfl⟩ := List.mem_map.mp hm
          rw [hs₁, hs₂, hs₃]
          simp only [Piece.opensDeclaration, hp₁, Piece.isFreshWord_iff.mpr ⟨name, hp₂⟩,
            Piece.isOperator_iff_token?.mpr hp₃, decide_true, Bool.and_true]
        · cases he
      · cases he
    · cases he

theorem equals_of_delivers {s₁ : TokenStream} {name name' : String}
    (h : Delivers symbols s [.keyword .declare, .identifier name] s₁)
    (h' : Delivers symbols s [.keyword .declare, .identifier name', .operator .equals] s') :
    Delivers symbols s₁ [.operator .equals] s' := by
  obtain ⟨s₂, hd, hn⟩ := h.pair
  obtain ⟨s₃, s₄, hd', hn', he⟩ := h'.triple
  rw [hd] at hd'
  cases hd'
  rw [hn] at hn'
  cases hn'
  exact .single he

theorem after_of_declaration {name : String}
    (h : Delivers symbols s [.keyword .declare, .identifier name, .operator .equals] s') :
    Piece.after .equals s.pieces = s'.pieces := by
  obtain ⟨s₁, s₂, ht₁, ht₂, ht₃⟩ := h.triple
  rw [after_of_take ht₁ (by simp), after_of_take ht₂ (by simp), after_of_terminator ht₃]

/-- How many terminators belong to a statement that fails. -/
def Piece.terminators (symbols : SymbolTable) (pieces : List Piece) : Nat :=
  if opensDeclaration symbols pieces then 2 else 1

theorem afterNth_of_opensDeclaration {name : String}
    (h : Delivers symbols s [.keyword .declare, .identifier name, .operator .equals] s') :
    Piece.afterNth .equals (Piece.terminators symbols s.pieces) s.pieces = Piece.after .equals s'.pieces := by
  rw [Piece.terminators, if_pos (opensDeclaration_iff.mpr ⟨name, s', h⟩)]
  simp only [Piece.afterNth, after_of_declaration h]

theorem afterNth_of_not_opensDeclaration
    (h : ∀ name s', ¬ Delivers symbols s [.keyword .declare, .identifier name, .operator .equals] s') :
    Piece.afterNth .equals (Piece.terminators symbols s.pieces) s.pieces = Piece.after .equals s.pieces := by
  have ho : ¬ Piece.opensDeclaration symbols s.pieces = true := by
    intro ho
    obtain ⟨name, s', hd⟩ := opensDeclaration_iff.mp ho
    exact h name s' hd
  rw [Piece.terminators, if_neg ho]
  rfl

end

theorem after_of_evaluates {s : TokenStream} {e : Error} {c' : Calculator}
    (h : Evaluates symbols s (.error e) c') : Piece.after .equals c'.stream.pieces =
      Piece.afterNth .equals (Piece.terminators symbols s.pieces) s.pieces := by
  generalize hr : (Except.error e : Except Error Outcome) = result at h
  -- Two terminators belong to the rules that come after `Delivers` has passed an `=`, one to all others.
  cases h with
  | quit | declared => cases hr
  | unread ht =>
    rw [afterNth_of_not_opensDeclaration, after_of_move (.fail ht)]
    intro name s' hd
    exact Delivers.not_of_next ht (by simp) hd
  | expression ht _ hn h =>
    rw [afterNth_of_not_opensDeclaration, after_of_moves (moves_of_reads h (by simp))]
    intro name s' hd
    exact Delivers.not_of_next ht (by simpa using hn) hd
  | name_unread hd ht =>
    rw [afterNth_of_not_opensDeclaration, after_of_delivers hd (by simp), after_of_move (.fail ht)]
    intro name s' hd'
    exact Delivers.not_of_next ht (by simp) (hd.drop hd')
  | name_missing hd ht hn =>
    rw [afterNth_of_not_opensDeclaration, after_of_delivers hd (by simp), after_of_move (move_abandoned ht)]
    intro name s' hd'
    exact Delivers.not_of_next ht (by simpa using hn name) (hd.drop hd')
  | equals_unread hd ht =>
    rw [afterNth_of_not_opensDeclaration, after_of_delivers hd (by simp), after_of_move (.fail ht)]
    intro name' s' hd'
    exact Delivers.not_of_next ht (by simp) (equals_of_delivers hd hd')
  | equals_missing hd ht he =>
    rw [afterNth_of_not_opensDeclaration, after_of_delivers hd (by simp), after_of_take ht he]
    intro name' s' hd'
    exact Delivers.not_of_next ht (by simpa using he) (equals_of_delivers hd hd')
  | value_fails hd h => rw [afterNth_of_opensDeclaration hd, after_of_moves (moves_of_reads h (by simp))]
  | redeclared hd h => rw [afterNth_of_opensDeclaration hd, after_of_moves (moves_of_reads h (by simp))]

namespace Calculator

/-- After a statement that failed and `recover`, exactly the pieces behind the terminators of that
statement are left, and no token is held. -/
theorem recover_exact {c c₁ c₂ : Calculator} {cause : Cause} {line : Nat}
    (he : c.evaluateNext = (.error (.statement cause line), c₁)) (hr : c₁.recover = (.ok (), c₂)) :
    c₂.stream.pushedBack = none ∧
      c₂.stream.pieces =
        let pieces := c.stream.pieces.dropWhile (·.isOperator .equals)
        Piece.afterNth .equals (if Piece.opensDeclaration c.symbols pieces then 2 else 1) pieces := by
  obtain ⟨s₀, ho⟩ := exists_opens c.symbols c.stream
  have hs : (skipPast .equals c₁.stream).2 = c₂.stream := congrArg (·.2.stream) hr
  constructor
  · rw [← hs, pushedBack_skipPast]
  · rw [← hs, pieces_skipPast (by simp) (by simp), after_of_evaluates (evaluates_of_evaluateNext ho he),
      pieces_of_opens ho]
    rfl

/-- A declaration that fails behind its own `=`: the one in front of the 2 is its terminator. -/
theorem recover_exact_incomplete_declaration :
    let c : Calculator := ⟨.ofSource ⟨["let a = (1 = 2".toList], none⟩, .constants⟩
    c.evaluateNext.1 = .error (.statement (.expectedToken ')') 1) ∧ c.evaluateNext.2.recover.1 = .ok () ∧
      c.evaluateNext.2.recover.2.stream.pieces = [.item (.lexeme (.number (Decimal.mk 2 0).toBinary64))] := by
  intro c
  have he : c.evaluateNext.1 = .error (.statement (.expectedToken ')') 1) := by decide +kernel
  have hr : c.evaluateNext.2.recover.1 = .ok () := by decide +kernel
  refine ⟨he, hr, ?_⟩
  rw [(recover_exact (Prod.ext he rfl) (Prod.ext hr rfl)).2]
  decide +kernel

end Calculator

end DeskCalculator
