import DeskCalculator.Proofs.Calculator.Bounds
import DeskCalculator.Proofs.Calculator.Held
import DeskCalculator.Proofs.Calculator.Table
import DeskCalculator.Proofs.Decimal.Literals
import DeskCalculator.Proofs.Sessions.Endings

/-!
# How much a session writes

Every event takes an item of the text and is written on a line of its own: no number and no name has a line
break in it, and neither has a stray character, for a line break is a blank.
-/

namespace DeskCalculator

open TokenStream

def OneLine (text : String) : Prop := '\n' ∉ text.toList

instance : DecidablePred OneLine := fun text => inferInstanceAs (Decidable ('\n' ∉ text.toList))

theorem oneLine_append {text text' : String} (h : OneLine text) (h' : OneLine text') : OneLine (text ++ text') := by
  unfold OneLine at *
  rw [String.toList_append, List.mem_append, not_or]
  exact ⟨h, h'⟩

theorem oneLine_ofList {cs : List Char} (h : '\n' ∉ cs) : OneLine (String.ofList cs) := by
  simpa [OneLine] using h

/-! ## Numbers -/

theorem newline_not_mem_literal {l : NumberLiteral} (h : l.WellFormed) : '\n' ∉ l.text := by
  intro hm
  rcases h.isAlphanum_or hm with hc | hc | hc | hc <;> cases hc

theorem newline_not_mem_of_denotes {text : List Char} {number : ℚ} (h : Denotes text number) : '\n' ∉ text := by
  obtain ⟨l, hl, rfl, -⟩ := h
  exact newline_not_mem_literal hl

theorem oneLine_toString (n : Nat) : OneLine (toString n) := by
  have h : '\n' ∉ Nat.toDigits 10 n := by
    intro hm
    cases isDigit_of_mem_toDigits hm
  simpa [OneLine] using h

namespace Binary64

theorem newline_not_mem_signText (negative : Bool) : '\n' ∉ signText negative := by
  cases negative <;> decide

theorem oneLine_generalText (precision : Nat) (value : Binary64) :
    OneLine (String.ofList (value.generalText precision)) := by
  cases value with
  | nan _ _ _ => exact (by decide : OneLine "nan")
  | infinity negative =>
    cases negative with
    | false => exact (by decide : OneLine "inf")
    | true => exact (by decide : OneLine "-inf")
  | finite negative units h =>
    apply oneLine_ofList
    simp only [generalText, List.mem_append, not_or]
    refine ⟨newline_not_mem_signText negative, ?_⟩
    split
    · decide
    · exact newline_not_mem_of_denotes (Decimal.denotes_general _ _)

theorem oneLine_shortestText (value : Binary64) : OneLine (String.ofList value.shortestText) := by
  cases value with
  | nan _ _ _ => exact (by decide : OneLine "NaN")
  | infinity negative => cases negative <;> decide
  | finite negative units h =>
    apply oneLine_ofList
    simp only [shortestText, List.mem_append, not_or]
    refine ⟨newline_not_mem_signText negative, ?_⟩
    split
    · decide
    · exact newline_not_mem_of_denotes (Decimal.denotes_positional _)

end Binary64

/-! ## Names and causes -/

theorem Name.oneLine (n : Name) : OneLine n.text :=
  oneLine_ofList (newline_not_mem_word n.letter n.alphanumeric)

/-- The token is no name with a line break. -/
def Token.Unbroken (token : Token) : Prop := ∀ name, token = .identifier name → OneLine name

theorem yields_unbroken (symbols : SymbolTable) : symbols.Yields Token.Unbroken := by
  rintro s token s' hp h name rfl
  obtain ⟨n, rfl⟩ := name_of_next hp h
  exact n.oneLine

section
variable {symbols : SymbolTable} {s s' : TokenStream} {cause : Cause} {line : Nat}

theorem Cause.Arithmetic.oneLine (h : cause.Arithmetic) : OneLine cause.message := by
  cases h with
  | divideByZero | moduloByZero => decide
  | negativeSqrt operand => exact oneLine_append (oneLine_append (by decide) operand.oneLine_shortestText) (by decide)
  | exponentOutOfRange exponent =>
    exact oneLine_append (oneLine_append (by decide) exponent.oneLine_shortestText) (by decide)

theorem oneLine_of_stray {c : Char} (h : .item (.stray c) ∈ s.pieces) : OneLine (Cause.badToken c.toString).message := by
  obtain ⟨text, ht⟩ := LineReader.exists_itemsOf_of_mem (item_mem_pieces.mp h)
  have hc : OneLine c.toString := by
    have hb := isBlank_of_stray ht
    unfold OneLine
    rw [Char.toString, String.toList_singleton, List.mem_singleton]
    rintro rfl
    cases hb
  exact oneLine_append (oneLine_append (by decide) hc) (by decide)

theorem oneLine_of_blame (hs : Holds Token.Unbroken s) (h : Blame symbols s (.statement cause line) s') :
    OneLine cause.message := by
  cases h with
  | unread ht =>
    rcases of_next_error ht with ⟨c, hp, he⟩ | ⟨-, -, reason, -, he⟩
    · cases he
      exact oneLine_of_stray (hp ▸ List.mem_cons_self)
    · cases he
  | name ht =>
    have hname := property_of_next (yields_unbroken symbols) hs ht _ rfl
    exact oneLine_append (oneLine_append (by decide) hname) (by decide)
  | primary => decide
  | @token _ _ op => cases op <;> decide
  | arithmetic hc => exact hc.oneLine

theorem oneLine_of_delivers {name : String} {ws : List Token} (hs : Holds Token.Unbroken s)
    (h : Delivers symbols s ws s') (hm : .identifier name ∈ ws) : OneLine name :=
  property_of_delivers (yields_unbroken symbols) hs h _ hm name rfl

theorem oneLine_of_evaluates {c' : Calculator} (hs : Holds Token.Unbroken s)
    (h : Evaluates symbols s (.error (.statement cause line)) c') : OneLine cause.message := by
  cases (fault_of_evaluates h).1 with
  | blame hd hm hb =>
    have hI := invariant_holds (yields_unbroken symbols)
    exact oneLine_of_blame (hI.of_moves (hI.of_delivers hs hd) hm) hb
  | name_missing => decide
  | equals_missing hd =>
    exact oneLine_append (oneLine_append (by decide) (oneLine_of_delivers hs hd (.tail _ (.head _)))) (by decide)
  | redeclared hd hv =>
    cases SymbolTable.cause_of_declare hv
    exact oneLine_append (oneLine_append (by decide) (oneLine_of_delivers hs hd (.tail _ (.head _)))) (by decide)

end

theorem Calculator.oneLine_evaluateNext {c : Calculator} {cause : Cause} {line : Nat}
    (hs : Holds Token.Unbroken c.stream) (h : c.evaluateNext.1 = .error (.statement cause line)) :
    OneLine cause.message := by
  obtain ⟨s₀, ho⟩ := exists_opens c.symbols c.stream
  have hs₀ := (invariant_holds (yields_unbroken c.symbols)).of_opens hs ho
  exact oneLine_of_evaluates hs₀ (evaluates_of_evaluateNext ho (Prod.ext h rfl))

/-! ## Sessions -/

/-- The event is written as one line. -/
def Event.IsLine (event : Event) : Prop :=
  ∀ precision, ∃ line, OneLine line ∧ event.text precision = line ++ "\n"

theorem Event.isLine_result (value : Binary64) : (result value).IsLine := by
  intro precision
  exact ⟨_, oneLine_append (by decide) (value.oneLine_generalText precision), rfl⟩

theorem Event.isLine_mistake {cause : Cause} (line : Nat) (h : OneLine cause.message) :
    (mistake cause line).IsLine := by
  intro _
  exact ⟨(Error.statement cause line).message,
    oneLine_append (oneLine_append (oneLine_append (by decide) (oneLine_toString line)) (by decide)) h, rfl⟩

namespace Session

abbrev load (s : Session) : Nat := s.calculator.stream.load LineReader.size

theorem resume_spec (s : Session) (hs : Holds Token.Unbroken s.calculator.stream) :
    Holds Token.Unbroken s.resume.2.stream ∧ s.resume.2.stream.load LineReader.size ≤ s.load := by
  unfold resume
  split
  · exact ⟨holds_of_none (pushedBack_skipPast .equals s.calculator.stream),
      load_skipPast_equals s.calculator.stream⟩
  · exact ⟨hs, Nat.le_refl _⟩

/-- An event is a line, and there is an item less to come. -/
theorem oneLine_of_step {s s' : Session} {event : Event} (hs : Holds Token.Unbroken s.calculator.stream)
    (h : s.step = .event event s') :
    event.IsLine ∧ Holds Token.Unbroken s'.calculator.stream ∧ s'.load + 1 ≤ s.load := by
  obtain ⟨hr, hle⟩ := s.resume_spec hs
  unfold step at h
  split at h
  · cases h
  · next c hc =>
    rw [hc] at hr hle
    have hl := c.load_evaluateNext LineReader.shrinks_size
    have hs' := (invariant_holds (yields_unbroken c.symbols)).of_evaluateNext hr
    split at h <;> rename_i he <;> rw [he] at hl hs'
    · cases h
      exact ⟨Event.isLine_result _, hs', Nat.le_trans hl hle⟩
    · cases h
    · cases h
      exact ⟨Event.isLine_mistake _ (Calculator.oneLine_evaluateNext hr (congrArg Prod.fst he)), hs',
        Nat.le_trans hl hle⟩
    · cases h

theorem history_spec (s : Session) (hs : Holds Token.Unbroken s.calculator.stream) :
    s.history.events.length ≤ s.load ∧ ∀ event ∈ s.history.events, event.IsLine := by
  fun_induction history s with
  | case1 s event s' h _ ih =>
    obtain ⟨hevent, hs', hload⟩ := oneLine_of_step hs h
    obtain ⟨hlength, hrest⟩ := ih hs'
    refine ⟨?_, List.forall_mem_cons.mpr ⟨hevent, hrest⟩⟩
    show s'.history.events.length + 1 ≤ s.load
    omega
  | case2 | case3 => simp

end Session

theorem lineCount_transcribe (precision : Nat) (writers : Writers) (h : History) {events : List Event}
    (hlines : ∀ event ∈ events, event.IsLine) :
    Text.lineCount (h.transcribe precision writers events).output.toList +
      Text.lineCount (h.transcribe precision writers events).diagnostics.toList ≤ events.length := by
  induction events with
  | nil => simp [History.transcribe, Text.lineCount]
  | cons event events ih =>
    obtain ⟨hevent, hrest⟩ := List.forall_mem_cons.mp hlines
    have ih := ih hrest
    obtain ⟨line, hline, htext⟩ := hevent precision
    have hcount (rest : String) : Text.lineCount (event.text precision ++ rest).toList =
        Text.lineCount rest.toList + 1 := by
      rw [htext, String.toList_append, String.toList_append, List.append_assoc]
      exact Text.lineCount_append_newline hline rest.toList
    rw [History.transcribe, List.length_cons]
    split
    · simp [Text.lineCount]
    · cases event with
      | result value =>
        simp only [Transcript.precededBy, hcount]
        omega
      | mistake cause line =>
        simp only [Transcript.precededBy, hcount]
        omega

/-- An item of the text answers one evaluation at most, and where none does the end has been met. So a session
comes to an end and writes no more lines than there are items. -/
theorem evaluations_bounded (bytes : List UInt8) :
    (∀ (symbols : SymbolTable) (calls : List Calculator.Call),
      (((Calculator.ofSource (.ofBytes bytes none) symbols).evaluations calls).countP Calculator.answers ≤
        (itemsOf (Text.decode bytes)).length) ∧
      ∀ c ∈ (Calculator.ofSource (.ofBytes bytes none) symbols).evaluations calls, c.answers = false → c.Ended) ∧
    (Session.ofSource (.ofBytes bytes none)).history.failure = none ∧
    (Session.ofSource (.ofBytes bytes none)).history.events.length ≤ (itemsOf (Text.decode bytes)).length ∧
    ∀ precision writers,
      Text.lineCount ((Source.ofBytes bytes none).transcript precision writers).output.toList +
        Text.lineCount ((Source.ofBytes bytes none).transcript precision writers).diagnostics.toList ≤
          (itemsOf (Text.decode bytes)).length := by
  have hload : (TokenStream.ofSource (.ofBytes bytes none)).load LineReader.size =
      (itemsOf (Text.decode bytes)).length := by
    have := congrArg List.length (pieces_ofBytes bytes)
    rw [pieces_of_none rfl, List.length_map, List.length_map] at this
    exact this
  obtain ⟨hlength, hlines⟩ := (Session.ofSource (.ofBytes bytes none)).history_spec (holds_of_none rfl)
  obtain ⟨hfailure, -⟩ := (Session.ofSource (.ofBytes bytes none)).history_of_failure_none rfl
  replace hlength := Nat.le_trans hlength (Nat.le_of_eq hload)
  refine ⟨fun symbols calls => ⟨?_, fun c _ => Calculator.ended_of_not_answers⟩, hfailure, hlength,
    fun precision writers => ?_⟩
  · exact Nat.le_trans (Calculator.countP_evaluations_le rfl calls) (Nat.le_of_eq hload)
  · rw [transcript_eq]
    exact Nat.le_trans (lineCount_transcribe precision writers _ hlines) hlength

end DeskCalculator
