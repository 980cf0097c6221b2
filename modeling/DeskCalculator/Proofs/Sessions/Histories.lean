import DeskCalculator.Proofs.Text.Decoding
import DeskCalculator.Session

/-!
# Histories of sessions

A session's history, one step at a time, and the transcript of it: what writers that do not fail part way receive,
as text. Without a failure these are the values as output and the causes as diagnostics.
-/

namespace DeskCalculator

namespace Session

theorem history_eq (s : Session) : s.history = match s.step with
    | .event event s' => ⟨event :: s'.history.events, s'.history.failure⟩
    | .finished => ⟨[], none⟩
    | .failed e => ⟨[], some e⟩ := by
  rw [history]
  split <;> rename_i h <;> rw [h]

theorem history_of_event {s s' : Session} {event : Event} (h : s.step = .event event s') :
    s.history = ⟨event :: s'.history.events, s'.history.failure⟩ := by
  rw [history_eq, h]

end Session

/-- What an event reports, wherever that happened. -/
def Event.verdict : Event → Except Cause Binary64
  | .result value => .ok value
  | .mistake cause _ => .error cause

/-! ## Transcripts -/

/-- Why an event cannot be written down: results are output, mistakes are diagnostics. -/
def Writers.failureOn (writers : Writers) : Event → Option String
  | .result _ => writers.outputFailure
  | .mistake .. => writers.diagnosticsFailure

def Transcript.precededBy (t : Transcript) (precision : Nat) (event : Event) : Transcript :=
  match event with
  | .result _ => { t with output := event.text precision ++ t.output }
  | .mistake .. => { t with diagnostics := event.text precision ++ t.diagnostics }

/-- Writes events down up to the first that cannot be written, each as a whole. -/
def History.transcribe (precision : Nat) (writers : Writers) (h : History) : List Event → Transcript
  | [] => ⟨"", "", h.failure.or (writers.outputFailure.map .io)⟩
  | event :: events =>
    match writers.failureOn event with
    | some reason => ⟨"", "", some (.io reason)⟩
    | none => (h.transcribe precision writers events).precededBy precision event

theorem Writer.take_refusing_none (bytes : List UInt8) :
    (refusing none).take bytes = (bytes, .ok (refusing none)) := rfl

theorem Writer.take_refusing_some (reason : String) {bytes : List UInt8} (h : bytes ≠ []) :
    (refusing (some reason)).take bytes = ([], .error reason) := by
  have hlength : ¬ bytes.length ≤ 0 := by
    have := List.length_pos_iff.mpr h
    omega
  simp [take, refusing, hlength]

theorem Event.bytes_ne_nil (precision : Nat) (event : Event) : event.bytes precision ≠ [] := by
  have hline : ∃ line : String, event.text precision = line ++ "\n" := by
    cases event <;> exact ⟨_, rfl⟩
  obtain ⟨line, hline⟩ := hline
  rw [Event.bytes, hline, String.toList_append, Text.bytesOf, List.flatMap_append]
  simp

/-- The bytes of a transcript. -/
def Transcript.delivery (t : Transcript) : Delivery :=
  ⟨Text.bytesOf t.output.toList, Text.bytesOf t.diagnostics.toList, t.failure⟩

theorem Transcript.transcript_delivery (t : Transcript) : t.delivery.transcript = t := by
  simp [Transcript.delivery, Delivery.transcript, Text.decode_bytesOf]

theorem Transcript.delivery_precededBy (t : Transcript) (precision : Nat) (event : Event) :
    (t.precededBy precision event).delivery = t.delivery.behind event (event.bytes precision) := by
  cases event <;>
    simp [Transcript.delivery, Transcript.precededBy, Delivery.behind, Event.bytes, Text.bytesOf]

theorem deliver_refusing (precision : Nat) (writers : Writers) (h : History) (events : List Event) :
    History.deliver.go precision h events (.refusing writers.outputFailure) (.refusing writers.diagnosticsFailure) =
      (h.transcribe precision writers events).delivery := by
  induction events with
  | nil => rfl
  | cons event events ih =>
    rw [History.transcribe]
    cases event with
    | result value =>
      rw [History.deliver.go, Writers.failureOn]
      cases hw : writers.outputFailure with
      | none =>
        rw [hw] at ih
        rw [Writer.take_refusing_none, Transcript.delivery_precededBy, ← ih]
      | some reason =>
        rw [Writer.take_refusing_some reason (Event.bytes_ne_nil precision _)]
        rfl
    | mistake cause line =>
      rw [History.deliver.go, Writers.failureOn]
      cases hw : writers.diagnosticsFailure with
      | none =>
        rw [hw] at ih
        rw [Writer.take_refusing_none, Transcript.delivery_precededBy, ← ih]
      | some reason =>
        rw [Writer.take_refusing_some reason (Event.bytes_ne_nil precision _)]
        rfl

/-- The transcript of a source, event by event. -/
theorem transcript_eq (source : Source) (precision : Nat) (writers : Writers) :
    source.transcript precision writers =
      (Session.ofSource source).history.transcribe precision writers (Session.ofSource source).history.events := by
  rw [Source.transcript, Source.deliver, History.deliver, deliver_refusing, Transcript.transcript_delivery]

def resultLines (precision : Nat) (vs : List (Except Cause Binary64)) : List String :=
  vs.filterMap fun verdict => match verdict with
    | .ok value => some s!"={String.ofList (value.generalText precision)}\n"
    | .error _ => none

def causes (vs : List (Except Cause Binary64)) : List Cause :=
  vs.filterMap fun verdict => match verdict with
    | .ok _ => none
    | .error cause => some cause

/-- The lines that report causes, each at a line of the text. -/
def diagnosticLines (causes : List Cause) (lines : List Nat) : List String :=
  causes.zipWith (fun cause line => s!"Error on line {line}: {cause.message}\n") lines

theorem deliver_of_verdicts (precision : Nat) {h : History} (hf : h.failure = none) (events : List Event) :
    ∃ lines : List Nat, lines.length = (causes (events.map Event.verdict)).length ∧
      h.transcribe precision ⟨none, none⟩ events =
        ⟨String.join (resultLines precision (events.map Event.verdict)),
          String.join (diagnosticLines (causes (events.map Event.verdict)) lines), none⟩ := by
  induction events with
  | nil => exact ⟨[], rfl, by simp [History.transcribe, hf, resultLines, causes, diagnosticLines]⟩
  | cons event events ih =>
    obtain ⟨lines, hl, hgo⟩ := ih
    cases event with
    | result value =>
      refine ⟨lines, hl, ?_⟩
      simp only [History.transcribe, Writers.failureOn, hgo, Transcript.precededBy, List.map_cons,
        Event.verdict]
      rw [← String.join_cons]
      rfl
    | mistake cause line =>
      refine ⟨line :: lines, congrArg (· + 1) hl, ?_⟩
      simp only [History.transcribe, Writers.failureOn, hgo, Transcript.precededBy, List.map_cons,
        Event.verdict]
      rw [← String.join_cons]
      rfl

end DeskCalculator
