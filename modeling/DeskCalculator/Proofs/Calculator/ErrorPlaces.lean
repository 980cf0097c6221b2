import DeskCalculator.Proofs.Calculator.Causes
import DeskCalculator.Proofs.Calculator.Invariants
import DeskCalculator.Proofs.Calculator.SyntaxErrors
import DeskCalculator.Proofs.Stream.Positions

/-!
# What errors point at

Of the items that are delivered from the start of an evaluation on, one is what its error is about. `PointsAt` says which
one that is, for each cause, and where evaluating has stopped; the line of the error is the line of that item.
-/

namespace DeskCalculator

open TokenStream Grammar

/-- The first items are the tokens. -/
def Begins (items : Nat → Except Error Token) (ws : List Token) : Prop :=
  ∀ i (h : i < ws.length), items i = .ok ws[i]

/-- An evaluation of the items that fails for the cause is about the item with the number, and what is delivered behind
it has not been taken. -/
inductive PointsAt (items behind : Nat → Except Error Token) : Cause → Nat → Prop where
  /-- A character that starts no lexeme. -/
  | stray {front text line} (hf : Begins items front)
      (here : items front.length = .error (.statement (.badToken text) line))
      (hb : behind = fun i => items (front.length + 1 + i)) : PointsAt items behind (.badToken text) front.length
  /-- A name without a value. -/
  | name {front name} (hf : Begins items (front ++ [.identifier name]))
      (hb : behind = fun i => items (front.length + 1 + i)) :
      PointsAt items behind (.undefinedVariable name) front.length
  /-- The operator in front of an operand that it cannot be applied to. -/
  | operation {front ws} {k : Connective} {e left right cause} (hf : Begins items (front ++ .operator k.operator :: ws))
      (operand : Derives (.tokens .number) .primary e ws) (he : e.evaluate .ok = .ok right)
      (hv : k.apply left right = .error cause) (hb : behind = fun i => items (front.length + 1 + ws.length + i)) :
      PointsAt items behind cause front.length
  /-- The token behind the argument of a root, which is not taken. -/
  | root {front ws token e x cause}
      (hf : Begins items (front ++ .keyword .sqrt :: .operator .leftParen :: (ws ++ [token])))
      (argument : Derives (.tokens .number) (.chain .sum) e ws) (he : e.evaluate .ok = .ok x)
      (ends : ∀ k : Connective, token ≠ .operator k.operator) (hv : Evaluation.squareRoot x = .error cause)
      (hb : behind = fun i => items (front.length + 2 + ws.length + i)) :
      PointsAt items behind cause (front.length + 2 + ws.length)
  /-- The token behind the exponent of a power, which is not taken. -/
  | power {front ws ws' token e e' x y cause}
      (hf : Begins items (front ++
        .keyword .pow :: .operator .leftParen :: (ws ++ .operator .comma :: (ws' ++ [token]))))
      (base : Derives (.tokens .number) (.chain .sum) e ws) (he : e.evaluate .ok = .ok x)
      (exponent : Derives (.tokens .number) (.chain .sum) e' ws') (he' : e'.evaluate .ok = .ok y)
      (ends : ∀ k : Connective, token ≠ .operator k.operator) (hv : Evaluation.power x y = .error cause)
      (hb : behind = fun i => items (front.length + 3 + ws.length + ws'.length + i)) :
      PointsAt items behind cause (front.length + 3 + ws.length + ws'.length)
  /-- The first token, behind the terminators in front of a statement, that no statement goes on with. -/
  | wrong {n cause taken offender} (hf : Begins items (List.replicate n (.operator .equals)))
      (hw : FirstWrong (fun i => items (n + i)) cause taken offender behind) :
      PointsAt items behind cause (n + taken.length)

theorem invariant_le_line (symbols : SymbolTable) (number : Nat) : Invariant symbols (number ≤ ·.line) where
  taken hs ht := Nat.le_trans hs (le_line_of_next ht)
  looked hs ht := by
    have := le_line_of_next ht
    exact Nat.le_trans hs this

/-! ## Where a reading stumbles -/

/-- Reading from the first stream fails at the line, not for a token that is missing, and leaves the second stream. -/
inductive Stumbles (symbols : SymbolTable) (s s' : TokenStream) : Cause → Nat → Prop where
  | stray {front s₀ cause line} (hf : Passes symbols s front s₀)
      (ht : next symbols s₀ = (.error (.statement cause line), s')) : Stumbles symbols s s' cause line
  | name {front s₀ name} (hf : Passes symbols s front s₀) (ht : next symbols s₀ = (.ok (.identifier name), s')) :
      Stumbles symbols s s' (.undefinedVariable name) s'.line
  | operation {front s₀} {k : Connective} {s₁ e left right ws cause} (hf : Passes symbols s front s₀)
      (ht : next symbols s₀ = (.ok (.operator k.operator), s₁)) (operand : Spans symbols .primary e right s₁ ws s')
      (hl : s₁.line ≤ s'.line) (hv : k.apply left right = .error cause) : Stumbles symbols s s' cause s₁.line
  | root {front s₀ s₁ e x ws cause token} (hf : Passes symbols s front s₀)
      (hd : Delivers symbols s₀ [.keyword .sqrt, .operator .leftParen] s₁)
      (argument : Spans symbols (.chain .sum) e x s₁ ws s') (held : s'.pushedBack = some token)
      (hv : Evaluation.squareRoot x = .error cause) : Stumbles symbols s s' cause s'.line
  | power {front s₀ s₁ s₂ s₃ e e' x y ws ws' cause token} (hf : Passes symbols s front s₀)
      (hd : Delivers symbols s₀ [.keyword .pow, .operator .leftParen] s₁)
      (base : Spans symbols (.chain .sum) e x s₁ ws s₂) (hc : next symbols s₂ = (.ok (.operator .comma), s₃))
      (exponent : Spans symbols (.chain .sum) e' y s₃ ws' s') (held : s'.pushedBack = some token)
      (hv : Evaluation.power x y = .error cause) : Stumbles symbols s s' cause s'.line

variable {symbols : SymbolTable}

section
variable {s s₁ s' : TokenStream} {cause : Cause} {line : Nat} {ws : List Token}

theorem Stumbles.after (h : Stumbles symbols s₁ s' cause line) (hp : Passes symbols s ws s₁) :
    Stumbles symbols s s' cause line := by
  cases h with
  | stray hf ht => exact .stray (hp.trans hf) ht
  | name hf ht => exact .name (hp.trans hf) ht
  | operation hf ht ho hl hv => exact .operation (hp.trans hf) ht ho hl hv
  | root hf hd ha held hv => exact .root (hp.trans hf) hd ha held hv
  | power hf hd hb hc hx held hv => exact .power (hp.trans hf) hd hb hc hx held hv

theorem Stumbles.of_next (ht : next symbols s = (.error (.statement cause line), s')) :
    Stumbles symbols s s' cause line := .stray (.of_delivers .nil) ht

theorem stumbles_of_expect {op : Operator} (h : expect symbols op s = (.error (.statement cause line), s'))
    (hc : ¬cause.IsSyntax) : Stumbles symbols s s' cause line := by
  cases hn : next symbols s with
  | mk answer s₁ =>
    cases answer with
    | error e =>
      rw [expect_of_error hn] at h
      cases h
      exact .of_next hn
    | ok token =>
      rw [expect_of_ok hn] at h
      split at h
      · cases h
      · cases h
        exact absurd trivial hc

/-- An argument that comes to a value is an expression behind its operator, and the token behind it is put back. -/
theorem spans_of_argument {op : Operator} {value : Binary64}
    (h : Reads symbols (.argument op) s (.ok value) s') : ∃ s₁ e ws token, next symbols s = (.ok (.operator op), s₁) ∧
      Spans symbols (.chain .sum) e value s₁ ws s' ∧ s'.pushedBack = some token := by
  cases h with
  | argument ho he =>
    obtain ⟨e, ws, hs⟩ := sound_of_reads he _ rfl
    obtain ⟨token, hp⟩ := held_of_reads he (.inl ⟨_, rfl⟩) rfl
    exact ⟨_, e, ws, token, next_of_expect ho, hs, hp⟩

theorem Connective.chain_of_apply {k : Connective} {left right : Binary64} (h : k.apply left right = .error cause) :
    k.chain = .product := by
  cases k with
  | plus | minus => cases h
  | times | divide | remainder => rfl

theorem of_close_error {result : Except Cause Binary64} {e : Error} (h : close symbols result s = (.error e, s')) :
    (∃ cause, result = .error cause ∧ e = .statement cause s.line ∧ s' = s) ∨
      expect symbols .rightParen s = (.error e, s') := by
  cases result with
  | error cause =>
    cases h
    exact .inl ⟨cause, rfl, rfl, rfl⟩
  | ok value =>
    cases hx : expect symbols .rightParen s with
    | mk answer s₁ =>
      rw [close_of_ok hx] at h
      cases answer with
      | error e' =>
        cases h
        exact .inr rfl
      | ok u => cases h

end

theorem stumbles_of_reads {part : Part} {s s' : TokenStream} {r : Except Error Binary64}
    (h : Reads symbols part s r s') : ∀ {cause : Cause} {line : Nat}, r = .error (.statement cause line) →
      ¬cause.IsSyntax → Stumbles symbols s s' cause line := by
  induction h with
  | rest_ends | number => intro _ _ hr _; cases hr
  | rest_unread ht | primary_unread ht =>
    intro _ _ hr _
    cases hr
    exact .of_next ht
  | chain_fails _ ih =>
    intro _ _ hr hc
    exact ih hr hc
  | chain ho _ _ ih =>
    intro _ _ hr hc
    obtain ⟨e, ws, hs⟩ := (sound_of_reads ho _ rfl).operand
    exact (ih hr hc).after hs.2.2.2
  | rest_fails ht _ _ ih =>
    intro _ _ hr hc
    exact (ih hr hc).after (.of_delivers (.single ht))
  | rest_undefined ht hk ho hv _ =>
    intro _ _ hr _
    cases hr
    subst hk
    rw [Connective.chain_of_apply hv] at ho
    obtain ⟨e, ws, hs⟩ := sound_of_reads ho _ rfl
    have hl := (invariant_le_line symbols _).of_reads (Nat.le_refl _) ho (by simp [Chain.operand])
    exact .operation (.of_delivers .nil) ht hs hl hv
  | rest_more ht _ ho _ _ _ ih =>
    intro _ _ hr hc
    obtain ⟨e, ws, hs⟩ := (sound_of_reads ho _ rfl).operand
    exact (ih hr hc).after (.cons ht hs.2.2.2)
  | argument_fails ho =>
    intro _ _ hr hc
    cases hr
    exact stumbles_of_expect ho hc
  | argument ho _ ih =>
    intro _ _ hr hc
    exact (ih hr hc).after (.of_delivers (.single (next_of_expect ho)))
  | @sign sign _ _ r _ ht _ ih =>
    intro _ _ hr hc
    cases r with
    | ok v => cases hr
    | error e => exact (ih hr hc).after (.of_delivers (.single ht))
  | group_fails ht _ ih =>
    intro _ _ hr hc
    exact (ih hr hc).after (.of_delivers (.single ht))
  | group ht he hclose _ =>
    intro _ _ hr hc
    subst hr
    obtain ⟨e, ws, hs⟩ := sound_of_reads he _ rfl
    rcases of_close_error hclose with ⟨_, hv, -⟩ | hx
    · cases hv
    · exact (stumbles_of_expect hx hc).after (.cons ht hs.2.2.2)
  | root_fails ht _ ih =>
    intro _ _ hr hc
    exact (ih hr hc).after (.of_delivers (.single ht))
  | root ht he hclose _ =>
    intro _ _ hr hc
    subst hr
    obtain ⟨s₁, e, ws, token, ho, hs, held⟩ := spans_of_argument he
    rcases of_close_error hclose with ⟨_, hv, herror, rfl⟩ | hx
    · cases herror
      exact .root (.of_delivers .nil) (.cons ht (.single ho)) hs held hv
    · exact (stumbles_of_expect hx hc).after (.cons ht (.cons ho hs.2.2.2))
  | power_base_fails ht _ ih =>
    intro _ _ hr hc
    exact (ih hr hc).after (.of_delivers (.single ht))
  | power_exponent_fails ht hb _ _ ih =>
    intro _ _ hr hc
    obtain ⟨s₁, e, ws, token, ho, hs, -⟩ := spans_of_argument hb
    exact (ih hr hc).after (.cons ht (.cons ho hs.2.2.2))
  | power ht hb hx hclose _ _ =>
    intro _ _ hr hc
    subst hr
    obtain ⟨s₁, e, ws, _, ho, hs, -⟩ := spans_of_argument hb
    obtain ⟨s₂, e', ws', token, hcomma, hs', held⟩ := spans_of_argument hx
    rcases of_close_error hclose with ⟨_, hv, herror, rfl⟩ | hexpect
    · cases herror
      exact .power (.of_delivers .nil) (.cons ht (.single ho)) hs hcomma hs' held hv
    · exact (stumbles_of_expect hexpect hc).after
        (.cons ht (.cons ho (hs.2.2.2.trans (.cons hcomma hs'.2.2.2))))
  | name ht =>
    intro _ _ hr _
    cases hr
    exact .name (.of_delivers .nil) ht
  | other ht _ =>
    intro _ _ hr hc
    cases hr
    exact absurd trivial hc

/-! ## The item and its line -/

section
variable {s s₀ s₁ s' : TokenStream} {cause : Cause} {line : Nat} {ws front : List Token}

theorem begins_of_delivers (h : Delivers symbols s ws s') : Begins (s.deliveries symbols) ws :=
  exists_delivers.mp ⟨s', h⟩

theorem begins_of_passes (h : Passes symbols s ws s') : Begins (s.deliveries symbols) ws := by
  obtain ⟨s₁, h, -⟩ := h
  exact begins_of_delivers h

theorem line_abandoned (s : TokenStream) (offender : Token) : (s.abandoned offender).line = s.line := by
  unfold abandoned
  split <;> rfl

/-- What is delivered behind the tokens that were passed, and on which line that is. -/
theorem next_of_passes {answer : Except Error Token} (hf : Passes symbols s front s₀)
    (ht : next symbols s₀ = (answer, s')) : s.deliveries symbols front.length = answer ∧
      s'.deliveries symbols = (fun i => s.deliveries symbols (front.length + 1 + i)) ∧
      s.deliveryLines symbols front.length = s'.line := by
  have hd := hf.deliveries_eq
  refine ⟨?_, ?_, ?_⟩
  · have := congrFun hd 0
    rw [deliveries, ht, Nat.add_zero] at this
    exact this.symm
  · funext i
    have := congrFun hd (i + 1)
    rw [deliveries, ht] at this
    rw [this, Nat.add_assoc, Nat.add_comm 1]
  · rw [deliveryLines_of_passes hf, ht]

theorem next_of_spans {e : Expr Binary64} {value : Binary64} {token : Token}
    (h : Spans symbols (.chain .sum) e value s ws s') (hp : s'.pushedBack = some token) :
    (∃ s₁, next symbols s' = (.ok token, s₁) ∧ s₁.line = s'.line) ∧ ∀ k : Connective, token ≠ .operator k.operator := by
  refine ⟨⟨_, next_of_held hp, rfl⟩, fun k hk => ?_⟩
  have hn := h.2.2.1.ne (k := k) (by cases k <;> rfl)
  rw [next_of_held hp, hk] at hn
  exact hn rfl

theorem pointsAt_of_stumbles (h : Stumbles symbols s s' cause line) : ∃ n,
    PointsAt (s.deliveries symbols) (s'.deliveries symbols) cause n ∧ line = s.deliveryLines symbols n ∧
      line ≤ s'.line := by
  cases h with
  | stray hf ht =>
    obtain ⟨hhere, hb, hl⟩ := next_of_passes hf ht
    rcases of_next_error ht with ⟨c, -, he⟩ | ⟨-, -, reason, -, he⟩
    · cases he
      exact ⟨_, .stray (begins_of_passes hf) hhere hb, hl.symm, Nat.le_refl _⟩
    · cases he
  | name hf ht =>
    obtain ⟨-, hb, hl⟩ := next_of_passes hf ht
    exact ⟨_, .name (begins_of_delivers (hf.closed ht)) hb, hl.symm, Nat.le_refl _⟩
  | @operation front s₀ k s₁ e left right ws _ hf ht ho hle hv =>
    obtain ⟨-, -, hl⟩ := next_of_passes hf ht
    have hpass := hf.trans (.cons ht ho.2.2.2)
    refine ⟨_, .operation (begins_of_passes hpass) ho.1 ho.2.1 hv ?_, hl.symm, hle⟩
    rw [hpass.deliveries_eq, List.length_append, List.length_cons, ← Nat.add_assoc, Nat.add_right_comm]
  | @root front s₀ s₁ e x ws _ token hf hd ha held hv =>
    obtain ⟨⟨s₂, hn, hline⟩, hends⟩ := next_of_spans ha held
    have hpass := hf.trans ((Passes.of_delivers hd).trans ha.2.2.2)
    have hlength : (front ++ ([Token.keyword .sqrt, .operator .leftParen] ++ ws)).length =
        front.length + 2 + ws.length := by
      simp only [List.length_append, List.length_cons, List.length_nil]
      omega
    refine ⟨_, .root (by simpa using begins_of_delivers (hpass.closed hn)) ha.1 ha.2.1 hends hv ?_, ?_, Nat.le_refl _⟩
    · rw [hpass.deliveries_eq, hlength]
    · rw [← hlength, deliveryLines_of_passes hpass, hn, hline]
  | @power front s₀ s₁ s₂ s₃ e e' x y ws ws' _ token hf hd hb hc hx held hv =>
    obtain ⟨⟨s₄, hn, hline⟩, hends⟩ := next_of_spans hx held
    have hpass := hf.trans ((Passes.of_delivers hd).trans (hb.2.2.2.trans (.cons hc hx.2.2.2)))
    have hlength : (front ++ ([Token.keyword .pow, .operator .leftParen] ++ (ws ++ .operator .comma :: ws'))).length =
        front.length + 3 + ws.length + ws'.length := by
      simp only [List.length_append, List.length_cons, List.length_nil]
      omega
    refine ⟨_, .power (by simpa using begins_of_delivers (hpass.closed hn)) hb.1 hb.2.1 hx.1 hx.2.1 hends hv ?_, ?_,
      Nat.le_refl _⟩
    · rw [hpass.deliveries_eq, hlength]
    · rw [← hlength, deliveryLines_of_passes hpass, hn, hline]

end

/-! ## Evaluations -/

section
variable {s s₀ s' : TokenStream} {cause : Cause} {line : Nat}

/-- Nothing is read between the token that is wrong and the error. -/
theorem line_of_blame (h : Blame symbols s (.statement cause line) s') (hc : cause.IsSyntax) : line = s'.line := by
  cases h with
  | unread ht => exact absurd hc (not_isSyntax_of_next ht)
  | name ht => rfl
  | primary | token => exact (line_abandoned _ _).symm
  | arithmetic ha => exact absurd hc ha.not_isSyntax

theorem line_of_reads {part : Part} (hp : part ≠ .argument .equals)
    (h : Reads symbols part s (.error (.statement cause line)) s') (hc : cause.IsSyntax) : line = s'.line := by
  obtain ⟨s₀, -, hb⟩ := (traced_of_reads h hp).2 _ rfl
  exact line_of_blame hb hc

theorem line_of_evaluates {c' : Calculator} (h : Evaluates symbols s (.error (.statement cause line)) c')
    (hc : cause.IsSyntax) : line = c'.stream.line := by
  generalize hr : (Except.error (.statement cause line) : Except Error Outcome) = result at h
  cases h with
  | quit | declared => cases hr
  | unread ht | name_unread _ ht | equals_unread _ ht =>
    cases hr
    exact absurd hc (not_isSyntax_of_next ht)
  | @expression _ _ r _ _ _ _ h =>
    cases r with
    | ok value => cases hr
    | error e =>
      cases hr
      exact line_of_reads (by simp) h hc
  | name_missing =>
    cases hr
    exact (line_abandoned _ _).symm
  | equals_missing | redeclared =>
    cases hr
    rfl
  | value_fails _ h =>
    cases hr
    exact line_of_reads (by simp) h hc

theorem stumbles_of_evaluates {c' : Calculator} (h : Evaluates symbols s (.error (.statement cause line)) c')
    (hc : ¬cause.IsSyntax) : Stumbles symbols s c'.stream cause line := by
  generalize hr : (Except.error (.statement cause line) : Except Error Outcome) = result at h
  cases h with
  | quit | declared => cases hr
  | unread ht =>
    cases hr
    exact .of_next ht
  | name_unread hd ht | equals_unread hd ht =>
    cases hr
    exact (Stumbles.of_next ht).after (.of_delivers hd)
  | @expression _ _ r _ _ _ _ h =>
    cases r with
    | ok value => cases hr
    | error e =>
      cases hr
      exact stumbles_of_reads h rfl hc
  | name_missing | equals_missing =>
    cases hr
    exact absurd trivial hc
  | value_fails hd h =>
    cases hr
    exact (stumbles_of_reads h rfl hc).after (.of_delivers hd)
  | redeclared hd _ hv =>
    obtain ⟨table, hv'⟩ := SymbolTable.declare_of_find? (find?_of_declaration hd) _
    rw [hv] at hv'
    cases hv'

theorem pointsAt_of_blames {n : Nat} (hd : Delivers symbols s (List.replicate n (.operator .equals)) s₀)
    (h : Language.statement.Blames symbols s₀ cause s') : ∃ m,
      PointsAt (s.deliveries symbols) (s'.deliveries symbols) cause m ∧ s'.line = s.deliveryLines symbols m := by
  obtain ⟨taken, offender, s₁, ht, rfl, hr⟩ := h
  have hw := firstWrong_of_rejects ht hr
  have hitems : s₀.deliveries symbols = fun i => s.deliveries symbols (n + i) := by
    funext i
    rw [hd.deliveries_eq, List.length_replicate]
  rw [hitems] at hw
  refine ⟨_, .wrong (begins_of_delivers hd) hw, ?_⟩
  obtain ⟨s₂, htaken, hoffender⟩ := Delivers.append_iff.mp ht
  have hline := deliveryLines_of_passes (.of_delivers (Delivers.append_iff.mpr ⟨s₀, hd, htaken⟩))
  rw [List.length_append, List.length_replicate, Delivers.single_iff.mp hoffender] at hline
  rw [hline, line_abandoned]

end

namespace Calculator

/-- An error of an evaluation is about one of the items that are delivered from its start on, and its line is the line
of that item. -/
theorem pointsAt_of_evaluateNext {c : Calculator} {cause : Cause} {line : Nat}
    (h : c.evaluateNext.1 = .error (.statement cause line)) : ∃ n,
      PointsAt (c.stream.deliveries c.symbols) (c.evaluateNext.2.stream.deliveries c.symbols) cause n ∧
        line = c.stream.deliveryLines c.symbols n ∧ line ≤ c.evaluateNext.2.stream.line := by
  obtain ⟨s₀, ho⟩ := exists_opens c.symbols c.stream
  have he := evaluates_of_evaluateNext ho (Prod.ext h rfl)
  obtain ⟨⟨n, hd⟩, -⟩ := ho
  by_cases hc : cause.IsSyntax
  · obtain ⟨m, hm, hl⟩ := pointsAt_of_blames hd (blames_of_evaluates he hc).1
    have hline := line_of_evaluates he hc
    exact ⟨m, hm, hline.trans hl, Nat.le_of_eq hline⟩
  · exact pointsAt_of_stumbles ((stumbles_of_evaluates he hc).after (.of_delivers hd))

end Calculator

end DeskCalculator
