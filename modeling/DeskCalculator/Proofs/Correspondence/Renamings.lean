import DeskCalculator.Proofs.Correspondence.Sessions
import DeskCalculator.Proofs.Programs.Renaming
import DeskCalculator.Proofs.Sessions.Endings
import DeskCalculator.Proofs.Stream.Skipping

/-!
# Renamed names

The names of variables carry no meaning. A session over a text with other names does what the session over the
text does, with a table in which each name has the value of its image; only messages that quote a name differ.
-/

namespace DeskCalculator

open TokenStream

/-- Every name has in the second table the value that it has in the first. -/
def SymbolTable.Renamed (names : String → String) (σ τ : SymbolTable) : Prop :=
  ∀ name, τ.find? (names name) = σ.find? name

def EagerStream.rename (names : String → String) (e : EagerStream) : EagerStream where
  waiting := e.waiting.map fun p => (p.1.rename names, p.2)
  lastLine := e.lastLine
  pushedBack := e.pushedBack.map (Token.rename names)
  line := e.line

namespace Renaming

variable (ρ : Renaming)

theorem ofWord?_apply (name : String) : Keyword.ofWord? (ρ.apply name) = Keyword.ofWord? name := by
  have hreserved (k : Keyword) : k.word ∈ reservedWords := by cases k <;> decide
  cases h : Keyword.ofWord? name with
  | some k =>
    rw [← Keyword.word_of_ofWord? h, ρ.apply_of_reserved (hreserved k), Keyword.ofWord?_word]
  | none =>
    rw [Keyword.ofWord?_eq_none_iff] at h ⊢
    intro k hk
    exact h k (((ρ.apply_eq_iff (hreserved k)).mp hk.symm).symm)

theorem isQuit_rename (token : Token) : (token.rename ρ.apply).isQuit = token.isQuit := by
  cases token with
  | identifier name => simp [Token.rename, Token.isQuit, ρ.apply_eq_iff (show "x" ∈ reservedWords by decide)]
  | _ => rfl

theorem lookup_apply {entries : List (String × Binary64)} (h : ∀ entry ∈ entries, entry.1 ∈ reservedWords) (name : String) :
    entries.lookup (ρ.apply name) = entries.lookup name := by
  induction entries with
  | nil => rfl
  | cons entry entries ih =>
    obtain ⟨hentry, hrest⟩ := List.forall_mem_cons.mp h
    have heq : (ρ.apply name == entry.1) = (name == entry.1) := by
      rw [Bool.eq_iff_iff, beq_iff_eq, beq_iff_eq, ρ.apply_eq_iff hentry]
    rw [List.lookup_cons, List.lookup_cons, heq, ih hrest]

theorem renamed_constants : SymbolTable.constants.Renamed ρ.apply SymbolTable.constants := by
  have hreserved : ∀ entry ∈ SymbolTable.constants.entries, entry.1 ∈ reservedWords := by decide +kernel
  exact ρ.lookup_apply hreserved

variable {ρ} {σ τ : SymbolTable}

theorem ofLexeme_rename (h : σ.Renamed ρ.apply τ) (lexeme : Lexeme) :
    Token.ofLexeme τ (lexeme.rename ρ.apply) = (Token.ofLexeme σ lexeme).rename ρ.apply := by
  cases lexeme with
  | number value => rfl
  | operator op => rfl
  | word word =>
    simp only [Lexeme.rename, Token.ofLexeme, ρ.ofWord?_apply, h word]
    cases Keyword.ofWord? word with
    | some k => rfl
    | none => cases σ.find? word <;> rfl

theorem step_rename (h : σ.Renamed ρ.apply τ) {e e' : EagerStream} {answer : Answer}
    (hs : e.Step (.next σ) answer e') :
    (e.rename ρ.apply).Step (.next τ) (answer.map (Option.map (Token.rename ρ.apply))) (e'.rename ρ.apply) := by
  cases hs with
  | held hp => exact .held (by simp [EagerStream.rename, hp])
  | @token _ lexeme line rest token hp hw hc =>
    have hclass : Classified τ (lexeme.rename ρ.apply) (token.rename ρ.apply) := by
      rw [classified_iff, ofLexeme_rename h, classified_iff.mp hc]
    exact .token (by simp [EagerStream.rename, hp]) (by simp [EagerStream.rename, hw, Item.rename]) hclass
  | stray hp hw => exact .stray (by simp [EagerStream.rename, hp]) (by simp [EagerStream.rename, hw, Item.rename])
  | endOfInput hp hw => exact .endOfInput (by simp [EagerStream.rename, hp]) (by simp [EagerStream.rename, hw])

theorem fromOperator_rename (names : String → String) (op : Operator) (waiting : List (Item × Nat)) :
    fromOperator op (waiting.map fun p => (p.1.rename names, p.2)) =
      (fromOperator op waiting).map fun p => (p.1.rename names, p.2) := by
  have hop (i : Item) : (i.rename names).isOperator op = i.isOperator op := by
    cases i with
    | stray c => rfl
    | lexeme lexeme => cases lexeme <;> simp [Item.rename, Lexeme.rename, Item.isOperator]
  rw [fromOperator, fromOperator, List.dropWhile_map]
  simp only [Function.comp_def, hop]

theorem skipPast_rename (names : String → String) (op : Operator) (e : EagerStream) :
    (e.rename names).skipPast op = (e.skipPast op).rename names := by
  have hheld : (e.rename names).pushedBack = some (.operator op) ↔ e.pushedBack = some (.operator op) := by
    cases hp : e.pushedBack <;> simp [EagerStream.rename, hp, Token.rename_eq_operator]
  unfold EagerStream.skipPast
  by_cases hp : e.pushedBack = some (.operator op)
  · rw [if_pos hp, if_pos (hheld.mpr hp)]
    rfl
  · rw [if_neg hp, if_neg (fun h => hp (hheld.mp h))]
    simp only [EagerStream.rename, fromOperator_rename]
    cases fromOperator op e.waiting <;> rfl

end Renaming

/-- Streams over a text and over the text with other names. -/
def Pairing.renamings (ρ : Renaming) : Pairing where
  names := ρ.apply
  lines := Eq
  tables := SymbolTable.Renamed ρ.apply
  streams s t := t.eager = s.eager.rename ρ.apply ∧ s.failure = none ∧ t.failure = none

namespace Correspondence

open Pairing

variable {ρ : Renaming} {σ τ : SymbolTable} {s t : TokenStream}

theorem answers_next_renamings (h : σ.Renamed ρ.apply τ) (hst : (renamings ρ).streams s t) :
    (renamings ρ).Answers (fun token token' => token' = token.rename ρ.apply) (next σ s) (some (next τ t)) := by
  obtain ⟨heager, hs, ht⟩ := hst
  have hstep := Renaming.step_rename h (step_next σ hs)
  rw [← heager] at hstep
  obtain ⟨hanswer, hafter⟩ := (step_iff_perform ht).mp hstep
  simp only [perform] at hanswer hafter
  have hstreams : (renamings ρ).streams (next σ s).2 (next τ t).2 :=
    ⟨hafter, (failure_next σ s).trans hs, (failure_next τ t).trans ht⟩
  generalize hp : next σ s = p at hanswer hstreams ⊢
  generalize next τ t = q at hanswer hstreams ⊢
  obtain ⟨r, s'⟩ := p
  obtain ⟨r', t'⟩ := q
  cases r with
  | ok token =>
    cases r' with
    | error e => cases hanswer
    | ok token' =>
      have htoken : token' = token.rename ρ.apply := by simpa [Except.map] using hanswer
      exact .ok htoken hstreams
  | error e =>
    rcases of_next_error hp with ⟨c, -, rfl⟩ | ⟨-, -, reason, hf, -⟩
    · cases r' with
      | ok token' => cases hanswer
      | error e' =>
        cases hanswer
        exact .mistake (.badToken c.toString) rfl hstreams
    · rw [hs] at hf
      cases hf

theorem answers_skipPast_renamings (hst : (renamings ρ).streams s t) :
    (renamings ρ).Answers Eq (skipPast .equals s) (some (skipPast .equals t)) := by
  obtain ⟨heager, hs, ht⟩ := hst
  obtain ⟨s', hskip, hafter, hf⟩ := eager_skipPast .equals (by simp) (by simp) hs
  obtain ⟨t', hskip', hafter', hf'⟩ := eager_skipPast .equals (by simp) (by simp) ht
  rw [hskip, hskip']
  refine .ok rfl ⟨?_, hf, hf'⟩
  rw [hafter', heager, Renaming.skipPast_rename, ← hafter]

theorem results_declare_renamings (h : σ.Renamed ρ.apply τ) (name : String) (value : Binary64) :
    (renamings ρ).Results (SymbolTable.Renamed ρ.apply) (σ.declare name value) (τ.declare (ρ.apply name) value) := by
  cases hτ : τ.declare (ρ.apply name) value with
  | ok τ' =>
    obtain ⟨hnone, -⟩ := SymbolTable.of_declare hτ
    obtain ⟨σ', hσ⟩ := SymbolTable.declare_of_find? ((h name).symm.trans hnone) value
    rw [hσ]
    refine .ok fun n => ?_
    rw [SymbolTable.find?_declare hτ, SymbolTable.find?_declare hσ, h n]
    simp only [ρ.apply_injective.eq_iff]
  | error cause =>
    rw [SymbolTable.cause_of_declare hτ]
    cases hσ : σ.declare name value with
    | error cause' =>
      rw [SymbolTable.cause_of_declare hσ]
      exact .error (.duplicateDeclaration name)
    | ok σ' =>
      obtain ⟨hnone, -⟩ := SymbolTable.of_declare hσ
      obtain ⟨τ', hτ'⟩ := SymbolTable.declare_of_find? ((h name).trans hnone) value
      rw [hτ] at hτ'
      cases hτ'

def renamings (ρ : Renaming) : Correspondence where
  toPairing := .renamings ρ
  lines_line h := (congrArg EagerStream.line h.1).symm
  map_pushedBack h := congrArg EagerStream.pushedBack h.1
  streams_holding token h _ := by
    obtain ⟨heager, hs, ht⟩ := h
    refine ⟨?_, hs, ht⟩
    have hholding (s : TokenStream) (token : Token) :
        (s.holding token).eager = { s.eager with pushedBack := some token } := rfl
    rw [hholding, hholding, heager]
    rfl
  answers_next h hst := answers_next_renamings h hst
  answers_skipPast := answers_skipPast_renamings
  results_declare name value h := results_declare_renamings h name value
  isQuit_rename := ρ.isQuit_rename

end Correspondence

/-! ## Transcripts -/

theorem sessions_of_renaming (ρ : Renaming) (text : List Char) : (Pairing.renamings ρ).Sessions
    (.ofSource (.ofBytes (Text.bytesOf text) none)) (.ofSource (.ofBytes (Text.bytesOf (ρ.respell text)) none)) := by
  refine ⟨⟨⟨?_, rfl, rfl⟩, ρ.renamed_constants⟩, rfl⟩
  simp only [Session.ofSource]
  rw [eager_ofBytes, eager_ofBytes, Text.decode_bytesOf, Text.decode_bytesOf, EagerStream.ofText,
    ρ.numberedItems_respell, ρ.lineCount_respell]
  rfl

theorem transcribe_rename (names : String → String) (precision : Nat) (writers : Writers) {h h' : History}
    (hf : h'.failure = h.failure) {events : List Event} (hr : ∀ event ∈ events, event.Reportable) :
    ∃ output failure causes lines, lines.length = causes.length ∧ (∀ cause ∈ causes, Cause.Reportable cause) ∧
      h.transcribe precision writers events = ⟨output, String.join (diagnosticLines causes lines), failure⟩ ∧
      h'.transcribe precision writers (events.map (Event.rename names)) =
        ⟨output, String.join (diagnosticLines (causes.map (Cause.rename names)) lines), failure⟩ := by
  induction events with
  | nil => exact ⟨_, _, [], [], rfl, by simp, rfl, by simp only [List.map_nil, History.transcribe, hf]; rfl⟩
  | cons event events ih =>
    obtain ⟨hevent, hrest⟩ := List.forall_mem_cons.mp hr
    have hw : writers.failureOn (event.rename names) = writers.failureOn event := by cases event <;> rfl
    simp only [List.map_cons, History.transcribe, hw]
    cases writers.failureOn event with
    | some reason => exact ⟨_, _, [], [], rfl, by simp, rfl, rfl⟩
    | none =>
      obtain ⟨output, failure, causes, lines, hlength, hcauses, hgo, hgo'⟩ := ih hrest
      simp only [hgo, hgo']
      cases event with
      | result value => exact ⟨_, failure, causes, lines, hlength, hcauses, rfl, rfl⟩
      | mistake cause line =>
        refine ⟨output, failure, cause :: causes, line :: lines, congrArg (· + 1) hlength,
          List.forall_mem_cons.mpr ⟨hevent, hcauses⟩, ?_, ?_⟩
        · simp only [Transcript.precededBy]
          rw [← String.join_cons]
          rfl
        · simp only [Transcript.precededBy, Event.rename]
          rw [← String.join_cons]
          rfl

/-- With other names a text has the same results and ends in the same way, and its diagnostics are the same but
for the names that they quote. -/
theorem transcript_of_renaming (ρ : Renaming) (text : List Char) (precision : Nat) (writers : Writers) :
    ∃ output failure causes lines, lines.length = causes.length ∧ (∀ cause ∈ causes, Cause.Reportable cause) ∧
      (Source.ofBytes (Text.bytesOf text) none).transcript precision writers =
        ⟨output, String.join (diagnosticLines causes lines), failure⟩ ∧
      (Source.ofBytes (Text.bytesOf (ρ.respell text)) none).transcript precision writers =
        ⟨output, String.join (diagnosticLines (causes.map (Cause.rename ρ.apply)) lines), failure⟩ := by
  have hsessions := sessions_of_renaming ρ text
  obtain ⟨hwell, hreportable⟩ := (Session.ofSource (.ofBytes (Text.bytesOf text) none)).history_of_failure_none rfl
  obtain ⟨⟨common, more, hevents, hcommon, hmore⟩, hfailure⟩ :=
    (Correspondence.renamings ρ).histories_of_sessions hsessions
  rw [hmore hwell, List.append_nil, Pairing.eq_map_of_events (fun _ _ => id) hcommon] at hevents
  have := transcribe_rename ρ.apply precision writers ((hfailure hwell).trans hwell.symm) hreportable
  rw [transcript_eq, transcript_eq, hevents]
  exact this

/-- The first `a` has no value yet, and is reported by its name in either text. -/
theorem transcript_of_renaming_swap : ∃ causes lines, lines.length = causes.length ∧
    (Source.ofBytes (Text.bytesOf "a=let a=2=a=".toList) none).transcript 6 ⟨none, none⟩ =
      ⟨"=2\n=2\n", String.join (diagnosticLines causes lines), none⟩ ∧
    (Source.ofBytes (Text.bytesOf " a1 = let   a1 =2= a1 =".toList) none).transcript 6 ⟨none, none⟩ =
      ⟨"=2\n=2\n", String.join (diagnosticLines
        (causes.map (Cause.rename (Renaming.swap ⟨"a", rfl⟩ ⟨"a1", rfl⟩ (by decide) (by decide)).apply)) lines),
        none⟩ := by
  obtain ⟨output, failure, causes, lines, hlength, -, h, h'⟩ := transcript_of_renaming
    (.swap ⟨"a", rfl⟩ ⟨"a1", rfl⟩ (by decide) (by decide)) "a=let a=2=a=".toList 6 ⟨none, none⟩
  have htext : (Renaming.swap ⟨"a", rfl⟩ ⟨"a1", rfl⟩ (by decide) (by decide)).respell "a=let a=2=a=".toList =
      " a1 = let   a1 =2= a1 =".toList := by
    decide +kernel
  obtain rfl : output = "=2\n=2\n" := (congrArg Transcript.output h).symm.trans (by decide +kernel)
  obtain rfl : failure = none := (congrArg Transcript.failure h).symm.trans (by decide +kernel)
  rw [htext] at h'
  exact ⟨causes, lines, hlength, h, h'⟩

end DeskCalculator
