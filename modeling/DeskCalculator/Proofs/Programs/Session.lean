import DeskCalculator.Proofs.Calculator.DeclaredNames
import DeskCalculator.Proofs.Calculator.Recovery
import DeskCalculator.Proofs.Programs.Reference
import DeskCalculator.Proofs.Sessions.Histories

/-!
# Sessions on programs

One event is reported for each sentence of a program, and it is what the sentence means. Between two sentences
the calculator holds the terminator of the last one, or nothing where that has been discarded (`Ready`); what it
has still to read is the rest of the program.
-/

namespace DeskCalculator

open TokenStream

variable {symbols : SymbolTable}

namespace Spelling

def piece (w : Spelling) : Piece := .item (.lexeme w.lexeme)

def token (symbols : SymbolTable) (w : Spelling) : Token := .ofLexeme symbols w.lexeme

theorem token_keyword (k : Keyword) : (keyword k).token symbols = .keyword k := by
  simp [token, lexeme, Token.ofLexeme, Keyword.ofWord?_word]

theorem token_operator (op : Operator) : (operator op).token symbols = .operator op := rfl

theorem token_name (n : Name) : (atom (.name n)).token symbols = match symbols.find? n.text with
    | some value => .number value
    | none => .identifier n.text := by
  have hk : Keyword.ofWord? n.text = none := n.free
  cases hf : symbols.find? n.text <;> simp [token, lexeme, Token.ofLexeme, hk, hf]

theorem map_spellings : Alphabet.spellings.map (token symbols) = .tokens fun a => (atom a).token symbols := by
  have hk : token symbols ∘ keyword = Token.keyword := funext token_keyword
  exact congrArg (Alphabet.mk (token symbols ∘ atom) .operator) hk

theorem resolves_token (symbols : SymbolTable) : Resolves (fun a => (atom a).token symbols) (Environment.value symbols.find?) := by
  intro a
  cases a with
  | literal l => exact Or.inl ⟨l.literal.value, rfl, rfl⟩
  | name n =>
    simp only [token_name, Environment.value]
    cases symbols.find? n.text with
    | some value => exact Or.inl ⟨value, rfl, rfl⟩
    | none => exact Or.inr ⟨n.text, rfl, rfl⟩

theorem of_token_eq_identifier {w : Spelling} {name : String} (h : w.token symbols = .identifier name) :
    (∃ n : Name, w = atom (.name n) ∧ n.text = name) ∧ symbols.find? name = none := by
  obtain ⟨hl, hk, hf⟩ := Piece.ofLexeme_eq_identifier.mp h
  refine ⟨?_, hf⟩
  cases w with
  | operator op => cases hl
  | atom a =>
    cases a with
    | literal l => cases hl
    | name n => exact ⟨n, rfl, by simpa [lexeme] using hl⟩
  | keyword k =>
    cases hl
    cases k <;> cases hk

theorem opensPrimary_atom (symbols : SymbolTable) (a : Atom) : ((atom a).token symbols).opensPrimary = true := by
  rcases resolves_token symbols a with ⟨v, ha, -⟩ | ⟨name, ha, -⟩
  · simp only [ha]; rfl
  · simp only [ha]; rfl

end Spelling

/-! ## Where an expression begins -/

theorem opensPrimary_of_derives (symbols : SymbolTable) {p : Phrase Atom} {e : Expr Atom} {ws : List Spelling}
    (h : Derives .spellings p e ws) (hp : ∀ c left, p ≠ .rest c left) :
    ∃ w ws', ws = w :: ws' ∧ (w.token symbols).opensPrimary = true := by
  induction h with
  | @chain c _ _ _ _ _ _ iho _ =>
    obtain ⟨w, ws, rfl, hw⟩ := iho (by cases c <;> simp [Phrase.operand])
    exact ⟨w, _, rfl, hw⟩
  | rest_nil => exact absurd rfl (hp _ _)
  | rest_cons => exact absurd rfl (hp _ _)
  | leaf a => exact ⟨_, _, rfl, Spelling.opensPrimary_atom symbols a⟩
  | @sign sign _ _ _ _ => exact ⟨_, _, rfl, by cases sign <;> rfl⟩
  | group _ _ => exact ⟨_, _, rfl, rfl⟩
  | power _ _ _ _ => exact ⟨_, _, rfl, by rw [Alphabet.spellings, Spelling.token_keyword]; rfl⟩
  | root _ _ => exact ⟨_, _, rfl, by rw [Alphabet.spellings, Spelling.token_keyword]; rfl⟩

theorem isQuit_of_opensPrimary {token : Token} (h : token.opensPrimary = true) (hq : token.isQuit = true) :
    token = .identifier "x" := by
  cases token with
  | identifier name => simpa [Token.isQuit] using hq
  | keyword k => cases k <;> simp [Token.isQuit, Token.opensPrimary] at h hq
  | endOfInput => cases h
  | _ => cases hq

theorem equals_not_mem {p : Phrase Atom} {e : Expr Atom} {ws : List Spelling} (h : Derives .spellings p e ws) :
    .operator .equals ∉ ws.map (Spelling.token symbols) := by
  have hatom (a : Atom) : (Spelling.atom a).token symbols ≠ .operator .equals := by
    intro ha
    have := Spelling.opensPrimary_atom symbols a
    rw [ha] at this
    cases this
  induction h with
  | chain _ _ iho ihr => simp [iho, ihr]
  | rest_nil => simp
  | @rest_cons k _ _ _ _ _ _ _ _ _ iho ihr =>
    have hk := k.operator_ne_equals
    simp only [List.map_cons, List.map_append, List.mem_cons, List.mem_append, not_or]
    exact ⟨hk.symm, iho, ihr⟩
  | leaf a => simpa [Alphabet.spellings] using (hatom a).symm
  | @sign sign _ _ _ ih =>
    have hs := sign.operator_ne_equals
    simp only [List.map_cons, List.mem_cons, not_or]
    exact ⟨hs.symm, ih⟩
  | group _ ih => simp [Alphabet.spellings, Spelling.token_operator, ih]
  | power _ _ ihb ihe => simp [Alphabet.spellings, Spelling.token_operator, Spelling.token_keyword, ihb, ihe]
  | root _ ih => simp [Alphabet.spellings, Spelling.token_operator, Spelling.token_keyword, ih]

/-! ## What is still to be read -/

/-- The stream holds nothing, fails nowhere, and has the spellings still to be read. -/
structure TokenStream.Ahead (s : TokenStream) (ws : List Spelling) : Prop where
  pushedBack : s.pushedBack = none
  failure : s.failure = none
  pieces : s.pieces = ws.map Spelling.piece

theorem next_of_ahead (symbols : SymbolTable) {s : TokenStream} {w : Spelling} {ws : List Spelling} (h : s.Ahead (w :: ws)) :
    ∃ s', next symbols s = (.ok (w.token symbols), s') ∧ s'.Ahead ws := by
  have hw : w.piece.token? symbols = some (w.token symbols) := rfl
  obtain ⟨s', ht, hp, hb, hf⟩ := next_of_pieces h.pieces hw
  exact ⟨s', ht, hb, hf.trans h.failure, hp⟩

theorem next_of_ahead_nil (symbols : SymbolTable) {s : TokenStream} (h : s.Ahead []) :
    ∃ s', next symbols s = (.ok .endOfInput, s') ∧ s'.Ahead [] := by
  obtain ⟨s', ht, hp, hb, hf⟩ := next_of_pieces_nil symbols h.pieces h.failure
  exact ⟨s', ht, hb, hf, hp⟩

theorem delivers_of_ahead (symbols : SymbolTable) {s : TokenStream} {ws ws' : List Spelling} (h : s.Ahead (ws ++ ws')) :
    ∃ s', Delivers symbols s (ws.map (Spelling.token symbols)) s' ∧ s'.Ahead ws' := by
  induction ws generalizing s with
  | nil => exact ⟨s, .nil, h⟩
  | cons w ws ih =>
    obtain ⟨s₁, ht, h₁⟩ := next_of_ahead symbols h
    obtain ⟨s', hd, h'⟩ := ih h₁
    exact ⟨s', .cons ht hd, h'⟩

/-- What stands behind a sentence: its terminator and the rest, or the end. -/
def Ending (tail rest : List Spelling) : Prop := tail = .operator .equals :: rest ∨ (tail = [] ∧ rest = [])

theorem after_of_ending {tail rest : List Spelling} (h : Ending tail rest) :
    Piece.after .equals (tail.map Spelling.piece) = rest.map Spelling.piece := by
  rcases h with rfl | ⟨rfl, rfl⟩
  · exact Piece.after_cons_of_isOperator rfl _
  · rfl

/-- The stream comes before the rest of a program: a terminator may be held, and so may the end. -/
def Resting (s : TokenStream) (rest : List Spelling) : Prop :=
  ∃ s₁ : TokenStream, s₁.Ahead rest ∧ (s = s₁.holding (.operator .equals) ∨ (rest = [] ∧ s = s₁.holding .endOfInput))

/-- Reading an expression of a program comes to its value and rests behind it, or fails for the first
reason that it has none; then what stands behind its terminator is still there. -/
theorem reads_expression (symbols : SymbolTable) {e : Expr Atom} {ws tail rest : List Spelling} {s : TokenStream}
    (h : Derives .spellings (.chain .sum) e ws) (hs : s.Ahead (ws ++ tail)) (ht : Ending tail rest) :
    match e.evaluate (Environment.value symbols.find?) with
    | .ok value => ∃ s', Reads symbols (.chain .sum) s (.ok value) s' ∧ Resting s' rest
    | .error cause => ∃ line s', Reads symbols (.chain .sum) s (.error (.statement cause line)) s' ∧
        s'.failure = none ∧ Piece.after .equals s'.pieces = rest.map Spelling.piece := by
  obtain ⟨s₁, hd, hs₁⟩ := delivers_of_ahead symbols hs
  obtain ⟨token, s₂, hn, htoken, hs₂⟩ : ∃ token s₂, next symbols s₁ = (.ok token, s₂) ∧
      (token = .operator .equals ∨ (rest = [] ∧ token = .endOfInput)) ∧ s₂.Ahead rest := by
    rcases ht with rfl | ⟨rfl, rfl⟩
    · obtain ⟨s₂, hn, hs₂⟩ := next_of_ahead symbols hs₁
      exact ⟨_, s₂, hn, Or.inl rfl, hs₂⟩
    · obtain ⟨s₂, hn, hs₂⟩ := next_of_ahead_nil symbols hs₁
      exact ⟨_, s₂, hn, Or.inr ⟨rfl, rfl⟩, hs₂⟩
  have hend : (Phrase.chain .sum : Phrase Atom).EndsBefore (next symbols s₁).1 := by
    rw [hn]
    rcases htoken with rfl | ⟨-, rfl⟩
    · exact Phrase.endsBefore_separator rfl
    · exact Phrase.endsBefore_token (by simp)
  have hder := h.map (Spelling.token symbols)
  rw [Spelling.map_spellings] at hder
  have hc := comes_of_derives (Spelling.resolves_token symbols) hder (.chain .sum) hd hend
  cases hv : e.evaluate (Environment.value symbols.find?) with
  | ok value =>
    rw [hv] at hc
    obtain ⟨s', hr, hn'⟩ := hc
    have hs' := eq_holding_of_reads hr (hn'.trans hn)
    refine ⟨s', hr, _, hs₂, ?_⟩
    rcases htoken with rfl | ⟨hrest, rfl⟩
    · exact Or.inl hs'
    · exact Or.inr ⟨hrest, hs'⟩
  | error cause =>
    rw [hv] at hc
    obtain ⟨line, s', hr⟩ := hc
    have hm := moves_of_reads hr (by simp)
    refine ⟨line, s', hr, ((invariant_failure symbols _).of_moves rfl hm).trans hs.failure, ?_⟩
    rw [← after_of_moves hm, after_of_delivers hd (equals_not_mem h), hs₁.pieces, after_of_ending ht]

/-! ## One sentence -/

/-- Evaluating what comes next reports a verdict, and afterwards, once a failed sentence is discarded,
the names have their values and the rest of the program is still to be read. -/
def Reports (c : Calculator) (verdict : Except Cause Binary64) (env : Environment) (rest : List Spelling) : Prop :=
  match verdict with
  | .ok value => ∃ c', c.evaluateNext = (.ok (.value value), c') ∧ c'.symbols.find? = env ∧
      Resting c'.stream rest
  | .error cause => ∃ line c' c'', c.evaluateNext = (.error (.statement cause line), c') ∧
      c'.recover = (.ok (), c'') ∧ c''.symbols.find? = env ∧ c''.stream.Ahead rest

theorem recover_of_after {c : Calculator} {rest : List Spelling} (hf : c.stream.failure = none)
    (ha : Piece.after .equals c.stream.pieces = rest.map Spelling.piece) :
    ∃ c', c.recover = (.ok (), c') ∧ c'.symbols = c.symbols ∧ c'.stream.Ahead rest := by
  refine ⟨c.recover.2, ?_, rfl, ?_⟩
  · rw [Calculator.recover, skipPast_of_failure_none hf]
  · refine ⟨pushedBack_skipPast .equals c.stream, ?_, ?_⟩
    · exact (failure_skipPast .equals c.stream).trans hf
    · exact (pieces_skipPast (by simp) (by simp) c.stream).trans ha

section
variable {c : Calculator} {s : TokenStream} {ws tail rest : List Spelling} {e : Expr Atom}
  (ho : ∃ n, Delivers c.symbols c.stream (List.replicate n (.operator .equals)) s)
  (ht : Ending tail rest)
include ho ht

theorem reports_expression (h : Derives .spellings (.chain .sum) e ws) (hs : s.Ahead (ws ++ tail))
    (ha : (Sentence.expression e).Admissible c.symbols.find? ws) :
    Reports c (e.evaluate (Environment.value c.symbols.find?)) c.symbols.find? rest := by
  obtain ⟨w, ws', rfl, hw⟩ := opensPrimary_of_derives c.symbols h (by simp)
  obtain ⟨s₁, hn, -⟩ := next_of_ahead c.symbols hs
  have hopen : Opens c.symbols c.stream s := by
    refine ⟨ho, ?_⟩
    rw [hn]
    intro he
    have he : w.token c.symbols = .operator .equals := by simpa using he
    rw [he] at hw
    cases hw
  have hq : (w.token c.symbols).isQuit = false := by
    rw [Bool.eq_false_iff]
    intro hq
    obtain ⟨⟨n, rfl, hx⟩, hnone⟩ := Spelling.of_token_eq_identifier (isQuit_of_opensPrimary hw hq)
    exact ha n rfl hx hnone
  have hd : w.token c.symbols ≠ .keyword .declare := by
    intro he
    rw [he] at hw
    cases hw
  have hr := reads_expression c.symbols h hs ht
  cases hv : e.evaluate (Environment.value c.symbols.find?) with
  | ok value =>
    rw [hv] at hr
    obtain ⟨s', hr, hrest⟩ := hr
    exact ⟨_, Calculator.evaluateNext_eq hopen (.expression hn hq hd hr), rfl, hrest⟩
  | error cause =>
    rw [hv] at hr
    obtain ⟨line, s', hr, hf, hafter⟩ := hr
    obtain ⟨c'', hrec, hsym, hahead⟩ := recover_of_after (c := ⟨s', c.symbols⟩) hf hafter
    exact ⟨line, _, c'', Calculator.evaluateNext_eq hopen (.expression hn hq hd hr), hrec,
      by rw [hsym], hahead⟩

theorem reports_declaration {name : Name} (h : Derives .spellings (.chain .sum) e ws)
    (hs : s.Ahead (.keyword .declare :: .atom (.name name) :: .operator .equals :: (ws ++ tail)))
    (hfresh : c.symbols.find? name.text = none) :
    Reports c (e.evaluate (Environment.value c.symbols.find?))
      ((Sentence.declaration name e).after c.symbols.find? (e.evaluate (Environment.value c.symbols.find?))) rest := by
  obtain ⟨s₁, hdecl, hs⟩ := next_of_ahead c.symbols hs
  obtain ⟨s₂, hname, hs⟩ := next_of_ahead c.symbols hs
  obtain ⟨s₃, heq, hs⟩ := next_of_ahead c.symbols hs
  rw [Spelling.token_keyword] at hdecl
  rw [Spelling.token_name, hfresh] at hname
  rw [Spelling.token_operator] at heq
  have hd : Delivers c.symbols s [.keyword .declare, .identifier name.text, .operator .equals] s₃ :=
    .cons hdecl (.cons hname (.single heq))
  have hopen : Opens c.symbols c.stream s := ⟨ho, by rw [hdecl]; simp⟩
  have hr := reads_expression c.symbols h hs ht
  cases hv : e.evaluate (Environment.value c.symbols.find?) with
  | ok value =>
    rw [hv] at hr
    obtain ⟨s', hr, hrest⟩ := hr
    obtain ⟨symbols', hsym⟩ := SymbolTable.declare_of_find? hfresh value
    refine ⟨_, Calculator.evaluateNext_eq hopen (.declared hd hr hsym), ?_, hrest⟩
    funext n
    simp only [Sentence.after, Environment.declare, SymbolTable.find?_declare hsym]
  | error cause =>
    rw [hv] at hr
    obtain ⟨line, s', hr, hf, hafter⟩ := hr
    obtain ⟨c'', hrec, hsym, hahead⟩ := recover_of_after (c := ⟨s', c.symbols⟩) hf hafter
    refine ⟨line, _, c'', Calculator.evaluateNext_eq hopen (.value_fails hd hr), hrec, ?_, hahead⟩
    simp only [hsym, Sentence.after]

end

/-! ## Whole programs -/

/-- A calculator stands before the rest of a program: terminators come first, or the end is held. -/
def Ready (c : Calculator) (ws : List Spelling) : Prop :=
  (∃ n s, Delivers c.symbols c.stream (List.replicate n (.operator .equals)) s ∧ s.Ahead ws) ∨
    (ws = [] ∧ ∃ s : TokenStream, s.Ahead [] ∧ c.stream = s.holding .endOfInput)

theorem ready_of_resting {c : Calculator} {rest : List Spelling} (h : Resting c.stream rest) : Ready c rest := by
  obtain ⟨s₁, hs, h⟩ := h
  rcases h with h | ⟨rfl, h⟩
  · refine Or.inl ⟨1, s₁, ?_, hs⟩
    rw [h]
    exact .single (next_holding hs.pushedBack _)
  · exact Or.inr ⟨rfl, s₁, hs, h⟩

theorem ready_of_ahead {c : Calculator} {rest : List Spelling} (h : c.stream.Ahead rest) : Ready c rest :=
  Or.inl ⟨0, c.stream, .nil, h⟩

theorem delivers_of_ready {c : Calculator} {ws : List Spelling} (h : Ready c ws) (hw : ws ≠ []) :
    ∃ s, (∃ n, Delivers c.symbols c.stream (List.replicate n (.operator .equals)) s) ∧ s.Ahead ws := by
  rcases h with ⟨n, s, hd, hs⟩ | ⟨rfl, -⟩
  · exact ⟨s, ⟨n, hd⟩, hs⟩
  · exact absurd rfl hw

theorem ready_of_terminator {c : Calculator} {ws : List Spelling} (h : Ready c (.operator .equals :: ws)) :
    Ready c ws := by
  obtain ⟨s, ⟨n, hd⟩, hs⟩ := delivers_of_ready h (by simp)
  obtain ⟨s', hn, hs'⟩ := next_of_ahead c.symbols hs
  refine Or.inl ⟨n + 1, s', ?_, hs'⟩
  rw [List.replicate_add]
  exact Delivers.append_iff.mpr ⟨s, hd, .single hn⟩

theorem quits_of_ready {c : Calculator} (h : Ready c []) : ∃ c', c.evaluateNext = (.ok .quit, c') := by
  obtain ⟨s, s', ho, hn⟩ : ∃ s s', Opens c.symbols c.stream s ∧ next c.symbols s = (.ok .endOfInput, s') := by
    rcases h with ⟨n, s, hd, hs⟩ | ⟨-, s, hs, hh⟩
    · obtain ⟨s', hn, -⟩ := next_of_ahead_nil c.symbols hs
      exact ⟨s, s', ⟨⟨n, hd⟩, by rw [hn]; simp⟩, hn⟩
    · have hn := @next_holding c.symbols _ hs.pushedBack .endOfInput
      rw [← hh] at hn
      exact ⟨c.stream, s, ⟨⟨0, .nil⟩, by rw [hn]; simp⟩, hn⟩
  exact ⟨_, Calculator.evaluateNext_eq ho (.quit hn rfl)⟩

theorem reports_sentence {c : Calculator} {sentence : Sentence} {ws tail rest : List Spelling}
    {r : Except Cause Binary64} (h : sentence.Spelled ws) (ha : sentence.Admissible c.symbols.find? ws)
    (ht : Ending tail rest) (hr : Ready c (ws ++ tail)) (hy : sentence.Yields c.symbols.find? r) :
    Reports c r (sentence.after c.symbols.find? r) rest := by
  rw [← Sentence.yields_iff.mp hy]
  cases h with
  | expression h =>
    obtain ⟨w, ws', rfl, -⟩ := opensPrimary_of_derives c.symbols h (by simp)
    obtain ⟨s, ho, hs⟩ := delivers_of_ready hr (by simp)
    exact reports_expression ho ht h hs ha
  | declaration h =>
    obtain ⟨s, ho, hs⟩ := delivers_of_ready hr (by simp)
    exact reports_declaration ho ht h hs ha

theorem step_of_reports {s : Session} {c : Calculator} {verdict : Except Cause Binary64} {env : Environment}
    {rest : List Spelling} (hs : s.resume = (.ok (), c)) (h : Reports c verdict env rest) :
    ∃ event s' c', s.step = .event event s' ∧ event.verdict = verdict ∧ s'.resume = (.ok (), c') ∧
      c'.symbols.find? = env ∧ Ready c' rest := by
  cases verdict with
  | ok value =>
    obtain ⟨c', he, henv, hr⟩ := h
    refine ⟨.result value, ⟨c', false⟩, c', ?_, rfl, rfl, henv, ready_of_resting hr⟩
    simp [Session.step, hs, he]
  | error cause =>
    obtain ⟨line, c', c'', he, hrec, henv, hr⟩ := h
    refine ⟨.mistake cause line, ⟨c', true⟩, c'', ?_, rfl, ?_, henv, ready_of_ahead hr⟩
    · simp [Session.step, hs, he]
    · simp [Session.resume, hrec]

theorem history_of_quit {s : Session} {c c' : Calculator} (hs : s.resume = (.ok (), c))
    (h : c.evaluateNext = (.ok .quit, c')) : s.history = ⟨[], none⟩ := by
  have hstep : s.step = .finished := by simp [Session.step, hs, h]
  rw [Session.history_eq, hstep]

theorem history_of_written {env : Environment} {p : List Sentence} {ws : List Spelling} (h : Written env p ws) :
    ∀ {s : Session} {c : Calculator}, s.resume = (.ok (), c) → c.symbols.find? = env → Ready c ws →
      s.history.failure = none ∧ Verdicts env p (s.history.events.map Event.verdict) := by
  -- `Ready` is what a sentence leaves to the next one, whether or not it had to be discarded.
  induction h with
  | nil =>
    intro s c hs _ hr
    obtain ⟨c', hq⟩ := quits_of_ready hr
    rw [history_of_quit hs hq]
    exact ⟨rfl, .nil⟩
  | terminator _ ih =>
    intro s c hs henv hr
    exact ih hs henv (ready_of_terminator hr)
  | cons hsp ha hy _ ih =>
    intro s c hs henv hr
    subst henv
    have hrep := reports_sentence hsp ha (Or.inl rfl) hr hy
    obtain ⟨event, s', c', hstep, hv, hs', henv, hr'⟩ := step_of_reports hs hrep
    obtain ⟨hf, he⟩ := ih hs' henv hr'
    rw [Session.history_of_event hstep]
    refine ⟨hf, ?_⟩
    rw [List.map_cons, hv]
    exact .cons hy he
  | @last env sentence ws hsp ha =>
    intro s c hs henv hr
    subst henv
    rw [← List.append_nil ws] at hr
    have hy := Sentence.yields_iff.mpr (rfl : sentence.tree.evaluate (Environment.value c.symbols.find?) = _)
    have hrep := reports_sentence hsp ha (Or.inr ⟨rfl, rfl⟩) hr hy
    obtain ⟨event, s', c', hstep, hv, hs', henv, hr'⟩ := step_of_reports hs hrep
    obtain ⟨c'', hq⟩ := quits_of_ready hr'
    rw [Session.history_of_event hstep, history_of_quit hs' hq]
    refine ⟨rfl, ?_⟩
    rw [List.map_cons, hv]
    exact .cons hy .nil

end DeskCalculator
