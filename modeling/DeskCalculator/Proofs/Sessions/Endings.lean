import DeskCalculator.Proofs.Calculator.Causes
import DeskCalculator.Proofs.Sessions.Histories

/-!
# How sessions end

Only streams that fail end a session with an error. Where none does, a session reports what its text
gives it, with causes that are there to be reported, and ends well.
-/

namespace DeskCalculator

open TokenStream

/-- The event is a value, or a mistake whose cause is there to be reported. -/
def Event.Reportable : Event → Prop
  | .result _ => True
  | .mistake cause _ => cause.Reportable

namespace Session

theorem failure_resume (s : Session) : s.resume.2.stream.failure = s.calculator.stream.failure := by
  unfold resume
  split
  · exact failure_skipPast .equals s.calculator.stream
  · rfl

theorem error_of_resume {s : Session} {e : Error} (h : s.resume.1 = .error e) :
    ∃ reason, s.calculator.stream.failure = some reason ∧ e = .io reason := by
  unfold resume at h
  split at h
  · exact (of_skipPast_error h).2.2
  · cases h

theorem of_step_event {s s' : Session} {event : Event} (h : s.step = .event event s') :
    event.Reportable ∧ s'.calculator.stream.failure = s.calculator.stream.failure := by
  have hr := s.failure_resume
  unfold step at h
  split at h
  · cases h
  · next c hc =>
    rw [hc] at hr
    have hf := c.failure_evaluateNext
    split at h <;> rename_i he <;> rw [he] at hf
    · cases h
      exact ⟨trivial, hf.trans hr⟩
    · cases h
    · cases h
      exact ⟨c.ordinary_evaluateNext (congrArg Prod.fst he), hf.trans hr⟩
    · cases h

theorem of_step_failed {s : Session} {e : Error} (h : s.step = .failed e) :
    ∃ reason, s.calculator.stream.failure = some reason ∧ e = .io reason := by
  have hr := s.failure_resume
  unfold step at h
  split at h
  · next hc =>
    cases h
    exact error_of_resume (congrArg Prod.fst hc)
  · next c hc =>
    rw [hc] at hr
    split at h
    · cases h
    · cases h
    · cases h
    · next reason _ he =>
      cases h
      exact ⟨reason, hr ▸ c.ordinary_evaluateNext (congrArg Prod.fst he), rfl⟩

/-- A session over an input that does not fail ends well, and all it reports is there to be reported. -/
theorem history_of_failure_none (s : Session) (hf : s.calculator.stream.failure = none) :
    s.history.failure = none ∧ ∀ event ∈ s.history.events, event.Reportable := by
  fun_induction history s with
  | case1 s event s' h _ ih =>
    obtain ⟨hevent, hf'⟩ := of_step_event h
    obtain ⟨hnone, hrest⟩ := ih (hf'.trans hf)
    exact ⟨hnone, List.forall_mem_cons.mpr ⟨hevent, hrest⟩⟩
  | case2 s h => exact ⟨rfl, by simp⟩
  | case3 s e h =>
    obtain ⟨reason, hs, -⟩ := of_step_failed h
    rw [hf] at hs
    cases hs

end Session

theorem reportable_of_causes {events : List Event} (h : ∀ event ∈ events, event.Reportable) :
    ∀ cause ∈ causes (events.map Event.verdict), cause.Reportable := by
  intro cause hc
  obtain ⟨verdict, hv, hcause⟩ := List.mem_filterMap.mp hc
  obtain ⟨event, he, rfl⟩ := List.mem_map.mp hv
  cases event with
  | result value => cases hcause
  | mistake cause' line =>
    cases hcause
    exact h _ he

/-- No stream and no table make reading or evaluating fail for an internal reason; and whatever the bytes
are, a session over them that can read and write ends well and has reported nothing else. -/
theorem internal_errors_unreachable :
    (∀ symbols, (statement.onStream symbols).Ordinary ∧ (expression symbols).Ordinary ∧ (term symbols).Ordinary ∧
      (primary symbols).Ordinary) ∧
    (∀ (c : Calculator) e, c.evaluateNext.1 = .error e → e.Ordinary c.stream.failure) ∧
    ∀ bytes precision, ∃ output causes lines, lines.length = causes.length ∧
      (∀ cause ∈ causes, Cause.Reportable cause) ∧ (Source.ofBytes bytes none).transcript precision ⟨none, none⟩ =
        ⟨output, String.join (diagnosticLines causes lines), none⟩ := by
  refine ⟨fun symbols => ⟨ordinary_statement symbols, ordinary_expression symbols, ordinary_term symbols,
    ordinary_primary symbols⟩, fun c e => c.ordinary_evaluateNext, fun bytes precision => ?_⟩
  obtain ⟨hf, hr⟩ := (Session.ofSource (.ofBytes bytes none)).history_of_failure_none rfl
  obtain ⟨lines, hl, hd⟩ := deliver_of_verdicts precision hf (Session.ofSource (.ofBytes bytes none)).history.events
  exact ⟨_, _, lines, hl, reportable_of_causes hr, (transcript_eq _ _ _).trans hd⟩

end DeskCalculator
