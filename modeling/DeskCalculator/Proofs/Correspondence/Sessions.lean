import Mathlib.Data.List.Forall2
import DeskCalculator.Proofs.Calculator.Statements
import DeskCalculator.Proofs.Correspondence.Readings
import DeskCalculator.Proofs.Sessions.Histories

/-!
# Two sessions side by side

Sessions that correspond take their steps together and report the same events, but for names and lines,
until the first one is cut short by its input. A whole history of the first is a whole history of the second.
-/

namespace DeskCalculator

open TokenStream

/-! ## Statements -/

namespace Pairing

variable (K : Pairing) {α β α' β' : Type} {related : α → β → Prop} {related' : α' → β' → Prop}

/-- What an action that may declare names comes to, with the table and the stream it leaves. -/
inductive Replies (related : α → β → Prop) :
    (Except Error α × SymbolTable) × TokenStream → (Except Error β × SymbolTable) × TokenStream → Prop where
  | ok {a b σ τ s t} (h : related a b) (hτ : K.tables σ τ) (hs : K.streams s t) :
      Replies related ((.ok a, σ), s) ((.ok b, τ), t)
  | mistake {line line' σ τ s t} (cause : Cause) (hl : K.lines line line') (hτ : K.tables σ τ) (hs : K.streams s t) :
      Replies related ((.error (.statement cause line), σ), s)
        ((.error (.statement (cause.rename K.names) line'), τ), t)
  | cut {reason σ s reply} : Replies related ((.error (.io reason), σ), s) reply

def Shadows (related : α → β → Prop) (x : Evaluating α) (y : Evaluating β) : Prop :=
  ∀ σ τ s t, K.tables σ τ → K.streams s t → K.Replies related (x σ s) (y τ t)

variable {K}

theorem shadows_reading {x : SymbolTable → Reading α} {y : SymbolTable → Reading β}
    (h : ∀ σ τ, K.tables σ τ → K.Follows related (x σ) (y τ)) :
    K.Shadows related (Evaluating.reading x) (Evaluating.reading y) := by
  intro σ τ s t hτ hst
  have ha := h σ τ hτ s t hst
  unfold Evaluating.reading
  generalize x σ s = p at ha ⊢
  generalize y τ t = q at ha ⊢
  cases ha with
  | ok hab hs => exact .ok hab hτ hs
  | mistake cause hl hs => exact .mistake cause hl hτ hs
  | cut => exact .cut

theorem shadows_lift {x : Reading α} {y : Reading β} (h : K.Follows related x y) :
    K.Shadows related (liftM x) (liftM y) := shadows_reading fun _ _ _ => h

theorem shadows_pure {a : α} {b : β} (h : related a b) : K.Shadows related (pure a) (pure b) :=
  fun _ _ _ _ hτ hst => .ok h hτ hst

theorem Shadows.bind {x : Evaluating α} {y : Evaluating β} {f : α → Evaluating α'} {g : β → Evaluating β'}
    (hx : K.Shadows related x y) (hf : ∀ a b, related a b → K.Shadows related' (f a) (g b)) :
    K.Shadows related' (x >>= f) (y >>= g) := by
  intro σ τ s t hτ hst
  have hy := hx σ τ s t hτ hst
  generalize hp : x σ s = p at hy
  generalize hq : y τ t = q at hy
  cases hy with
  | ok hab hτ hs =>
    rw [Evaluating.bind_ok hp, Evaluating.bind_ok hq]
    exact hf _ _ hab _ _ _ _ hτ hs
  | mistake cause hl hτ hs =>
    rw [Evaluating.bind_error hp, Evaluating.bind_error hq]
    exact .mistake cause hl hτ hs
  | cut =>
    rw [Evaluating.bind_error hp]
    exact .cut

end Pairing

namespace Correspondence

open Pairing

variable {K : Correspondence}

theorem shadows_declare (name : String) (value : Binary64) {line line' : Nat} (hl : K.lines line line') :
    K.Shadows Eq (Evaluating.declare name value line) (Evaluating.declare (K.names name) value line') := by
  intro σ τ s t hτ hst
  have hr := K.results_declare name value hτ
  unfold Evaluating.declare
  generalize σ.declare name value = r at hr ⊢
  generalize τ.declare (K.names name) value = r' at hr ⊢
  cases hr with
  | ok hτ => exact .ok rfl hτ hst
  | error cause => exact .mistake cause hl hτ hst

theorem shadows_next :
    K.Shadows (fun token token' => token' = token.rename K.names) (Evaluating.reading next) (Evaluating.reading next) :=
  shadows_reading fun _ _ => follows_next

theorem shadows_expression : K.Shadows Eq (Evaluating.reading expression) (Evaluating.reading expression) :=
  shadows_reading fun _ _ => follows_expression

theorem shadows_declaration : K.Shadows Eq declaration declaration := by
  refine shadows_next.bind fun token _ ht => ?_
  subst ht
  cases token with
  | identifier name =>
    refine shadows_next.bind fun token _ ht => ?_
    subst ht
    rw [Token.isOperator_rename]
    split
    · refine shadows_expression.bind fun value _ hv => ?_
      subst hv
      exact (shadows_lift follows_currentLine).bind fun line line' hl => shadows_declare name value hl
    · exact shadows_lift (follows_fail (.expectedAssignment name))
  | _ => exact shadows_lift (follows_reject _ .expectedName)

theorem shadows_statement : K.Shadows Eq statement statement := by
  refine shadows_next.bind fun token _ ht => ?_
  subst ht
  have hexpression (token : Token) : K.Shadows Eq
      (do putBack token; Evaluating.reading expression)
      (do putBack (token.rename K.names); Evaluating.reading expression) :=
    (shadows_lift (follows_putBack token)).bind fun _ _ _ => shadows_expression
  cases token with
  | keyword keyword =>
    cases keyword with
    | declare => exact shadows_declaration
    | _ => exact hexpression _
  | _ => exact hexpression _

variable {σ τ : SymbolTable} (h : K.tables σ τ)

include h in
theorem follows_nextOfStatement :
    K.Follows (fun token token' => token' = token.rename K.names) (nextOfStatement σ) (nextOfStatement τ) := by
  intro s
  fun_induction nextOfStatement σ s with
  | case1 s s' ht ih =>
    intro t hst
    have ha := K.answers_next h hst
    rw [ht] at ha
    generalize hq : next τ t = q at ha
    cases ha with
    | ok hr hs =>
      subst hr
      rw [nextOfStatement_of_equals hq]
      exact ih _ hs
  | case2 s hn =>
    intro t hst
    have ha := K.answers_next h hst
    by_cases ht : (next τ t).1 = .ok (.operator .equals)
    · generalize next σ s = p at ha hn ⊢
      generalize next τ t = q at ha ht
      cases ha with
      | ok hr _ =>
        cases ht
        cases (Token.rename_eq_operator K.names).mp hr.symm
        exact absurd rfl (hn _)
      | mistake => cases ht
      | cut => exact .cut
    · rw [nextOfStatement_of_other ht]
      exact ha

theorem shadows_outcome : K.Shadows Eq outcome outcome := by
  refine (shadows_reading fun _ _ => follows_nextOfStatement).bind fun token _ ht => ?_
  subst ht
  rw [K.isQuit_rename]
  split
  · exact shadows_pure rfl
  · refine (shadows_lift (follows_putBack token)).bind fun _ _ _ => ?_
    exact shadows_statement.bind fun _ _ hv => shadows_pure (congrArg Outcome.value hv)

end Correspondence

/-! ## Steps and histories -/

namespace Pairing

variable (K : Pairing)

inductive Events : Event → Event → Prop where
  | result (value : Binary64) : Events (.result value) (.result value)
  | mistake {line line'} (cause : Cause) (hl : K.lines line line') :
      Events (.mistake cause line) (.mistake (cause.rename K.names) line')

end Pairing

def Event.rename (names : String → String) : Event → Event
  | .result value => .result value
  | .mistake cause line => .mistake (cause.rename names) line

@[simp] theorem Event.rename_id : Event.rename id = id := by
  funext event
  cases event <;> simp [rename]

/-- Where lines are the same in both runs, so are the events, but for names. -/
theorem Pairing.eq_map_of_events {K : Pairing} (hl : ∀ line line', K.lines line line' → line = line')
    {events events' : List Event} (h : List.Forall₂ K.Events events events') :
    events' = events.map (Event.rename K.names) := by
  induction h with
  | nil => rfl
  | cons he _ ih =>
    cases he with
    | result value => rw [ih, List.map_cons, Event.rename]
    | mistake cause hline => rw [ih, List.map_cons, Event.rename, hl _ _ hline]

namespace Pairing

variable (K : Pairing)

structure Calculators (c c' : Calculator) : Prop where
  streams : K.streams c.stream c'.stream
  tables : K.tables c.symbols c'.symbols

structure Sessions (s s' : Session) : Prop where
  calculators : K.Calculators s.calculator s'.calculator
  discarding : s'.discarding = s.discarding

inductive Steps : Step → Step → Prop where
  | event {e e' s s'} (he : K.Events e e') (hs : K.Sessions s s') : Steps (.event e s) (.event e' s')
  | finished : Steps .finished .finished
  | failed {e step} : Steps (.failed e) step

/-- The second history begins with the events of the first, and has no other if the first ends well. -/
structure Histories (h h' : History) : Prop where
  events : ∃ common more, h'.events = common ++ more ∧ List.Forall₂ K.Events h.events common ∧
    (h.failure = none → more = [])
  failure : h.failure = none → h'.failure = none

end Pairing

namespace Correspondence

open Pairing

variable {K : Correspondence}

theorem resume_cases {s s' : Session} (h : K.Sessions s s') :
    (∃ e, s.resume.1 = .error e) ∨
      (s.resume.1 = .ok () ∧ s'.resume.1 = .ok () ∧ K.Calculators s.resume.2 s'.resume.2) := by
  unfold Session.resume
  rw [h.discarding]
  split
  · have ha := K.answers_skipPast h.calculators.streams
    unfold Calculator.recover
    generalize skipPast .equals s.calculator.stream = p at ha ⊢
    generalize skipPast .equals s'.calculator.stream = q at ha ⊢
    cases ha with
    | ok _ hs => exact Or.inr ⟨rfl, rfl, hs, h.calculators.tables⟩
    | mistake => exact Or.inl ⟨_, rfl⟩
    | cut => exact Or.inl ⟨_, rfl⟩
  · exact Or.inr ⟨rfl, rfl, h.calculators⟩

theorem steps_of_sessions {s s' : Session} (h : K.Sessions s s') : K.Steps s.step s'.step := by
  unfold Session.step
  obtain ⟨e, he⟩ | ⟨hr, hr', hc⟩ := resume_cases h
  · rw [show s.resume = (.error e, s.resume.2) from Prod.ext he rfl]
    exact .failed
  · rw [show s.resume = (.ok (), s.resume.2) from Prod.ext hr rfl,
      show s'.resume = (.ok (), s'.resume.2) from Prod.ext hr' rfl]
    have ha := shadows_outcome _ _ _ _ hc.tables hc.streams
    simp only [Calculator.evaluateNext]
    generalize outcome s.resume.2.symbols s.resume.2.stream = p at ha ⊢
    generalize outcome s'.resume.2.symbols s'.resume.2.stream = q at ha ⊢
    cases ha with
    | @ok result _ _ _ _ _ hr hτ hs =>
      subst hr
      cases result with
      | value value => exact .event (.result value) ⟨⟨hs, hτ⟩, rfl⟩
      | quit => exact .finished
    | mistake cause hl hτ hs => exact .event (.mistake cause hl) ⟨⟨hs, hτ⟩, rfl⟩
    | cut => exact .failed

theorem histories_of_sessions {s s' : Session} (h : K.Sessions s s') : K.Histories s.history s'.history := by
  induction s using Session.history.induct generalizing s' with
  | case1 s event s₁ hs ih =>
    have hsteps := steps_of_sessions h
    rw [hs] at hsteps
    generalize hs' : s'.step = step' at hsteps
    cases hsteps with
    | event he hsessions =>
      obtain ⟨⟨common, more, hevents, hcommon, hmore⟩, hfailure⟩ := ih hsessions
      rw [Session.history_of_event hs, Session.history_of_event hs']
      exact ⟨⟨_ :: common, more, congrArg _ hevents, .cons he hcommon, hmore⟩, hfailure⟩
  | case2 s hs =>
    have hsteps := steps_of_sessions h
    rw [hs] at hsteps
    generalize hs' : s'.step = step' at hsteps
    cases hsteps
    rw [s.history_eq, hs, s'.history_eq, hs']
    exact ⟨⟨[], [], rfl, .nil, fun _ => rfl⟩, fun _ => rfl⟩
  | case3 s e hs =>
    rw [s.history_eq, hs]
    exact ⟨⟨[], _, rfl, .nil, nofun⟩, nofun⟩

end Correspondence

/-! ## Transcripts -/

namespace Pairing

variable (K : Pairing)

/-- Both transcripts have the same output and end in the same way, and their diagnostics are those of the
same causes, but for names and lines. -/
structure Transcripts (t t' : Transcript) : Prop where
  output : t'.output = t.output
  failure : t'.failure = t.failure
  diagnostics : ∃ causes lines lines', lines.length = causes.length ∧ List.Forall₂ K.lines lines lines' ∧
    t.diagnostics = String.join (diagnosticLines causes lines) ∧
    t'.diagnostics = String.join (diagnosticLines (causes.map (Cause.rename K.names)) lines')

variable {K}

theorem Transcripts.refl_of_silent {t : Transcript} (h : t.diagnostics = "") : K.Transcripts t t :=
  ⟨rfl, rfl, [], [], [], rfl, .nil, h, h⟩

theorem Transcripts.precededBy {t t' : Transcript} (precision : Nat) {event event' : Event}
    (h : K.Transcripts t t') (he : K.Events event event') :
    K.Transcripts (t.precededBy precision event) (t'.precededBy precision event') := by
  obtain ⟨houtput, hfailure, causes, lines, lines', hlength, hlines, ht, ht'⟩ := h
  cases he with
  | result value =>
    exact ⟨congrArg (_ ++ ·) houtput, hfailure, causes, lines, lines', hlength, hlines, ht, ht'⟩
  | @mistake line line' cause hl =>
    refine ⟨houtput, hfailure, cause :: causes, line :: lines, line' :: lines', congrArg (· + 1) hlength,
      .cons hl hlines, ?_, ?_⟩
    · simp only [Transcript.precededBy, ht]
      rw [← String.join_cons]
      rfl
    · simp only [Transcript.precededBy, ht']
      rw [← String.join_cons]
      rfl

theorem transcripts_of_events (precision : Nat) (writers : Writers) {h h' : History}
    (hf : h'.failure = h.failure) {events events' : List Event} (he : List.Forall₂ K.Events events events') :
    K.Transcripts (h.transcribe precision writers events)
      (h'.transcribe precision writers events') := by
  induction he with
  | nil =>
    simp only [History.transcribe, hf]
    exact .refl_of_silent rfl
  | @cons event event' events events' he _ ih =>
    have hw : writers.failureOn event' = writers.failureOn event := by cases he <;> rfl
    simp only [History.transcribe, hw]
    cases writers.failureOn event with
    | some reason => exact .refl_of_silent rfl
    | none => exact ih.precededBy precision he

end Pairing

theorem Correspondence.transcripts_of_sessions {K : Correspondence} {s s' : Session} (h : K.Sessions s s')
    (hf : s.history.failure = none) (precision : Nat) (writers : Writers) :
    K.Transcripts (s.history.transcribe precision writers s.history.events)
      (s'.history.transcribe precision writers s'.history.events) := by
  obtain ⟨⟨common, more, hevents, hcommon, hmore⟩, hfailure⟩ := histories_of_sessions h
  cases hmore hf
  refine Pairing.transcripts_of_events precision writers ((hfailure hf).trans hf.symm) ?_
  rwa [hevents, List.append_nil]

end DeskCalculator
