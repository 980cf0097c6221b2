import DeskCalculator.Calculator.Progress
import DeskCalculator.Decimal.General

/-!
# Sessions

A session evaluates one statement after the other. A statement that fails is reported and discarded
up to its terminator; only the end of the text, a request to quit or a failing stream ends the
session. `Session.history` is everything that happens, and `History.deliver` what of it reaches two
writers, which may fail at any byte of it.
-/

namespace DeskCalculator

/-- What a session reports of a statement: its value, or what is wrong with it. -/
inductive Event where
  | result (value : Binary64)
  | mistake (cause : Cause) (line : Nat)
  deriving DecidableEq

/-- A calculator between two statements. While `discarding`, the rest of the last one has still to
be thrown away. -/
structure Session where
  calculator : Calculator
  discarding : Bool

inductive Step where
  | event (event : Event) (session : Session)
  | finished
  | failed (error : Error)

/-- All that a session reports, and the error that ends it, if one does. -/
structure History where
  events : List Event
  failure : Option Error

namespace Session

def ofSource (source : Source) : Session := ⟨⟨.ofSource source, .constants⟩, false⟩

/-- The statement to evaluate next, once the rest of a failed one is thrown away. -/
def resume (s : Session) : Except Error Unit × Calculator :=
  if s.discarding then s.calculator.recover else (.ok (), s.calculator)

def step (s : Session) : Step :=
  match s.resume with
  | (.error e, _) => .failed e
  | (.ok (), calculator) =>
    match calculator.evaluateNext with
    | (.ok (.value value), calculator) => .event (.result value) ⟨calculator, false⟩
    | (.ok .quit, _) => .finished
    | (.error (.statement cause line), calculator) =>
      .event (.mistake cause line) ⟨calculator, true⟩
    | (.error (.io reason), _) => .failed (.io reason)

theorem load_of_step {s s' : Session} {event : Event} (h : s.step = .event event s') :
    s'.calculator.stream.load LineReader.characters <
      s.calculator.stream.load LineReader.characters := by
  have hr : s.resume.2.stream.load LineReader.characters ≤
      s.calculator.stream.load LineReader.characters := by
    unfold resume
    split
    · exact s.calculator.load_recover
    · exact Nat.le_refl _
  unfold step at h
  split at h <;> rename_i hs <;> rw [hs] at hr
  · cases h
  · next c =>
    have hl := c.load_evaluateNext LineReader.shrinks_characters
    split at h <;> rename_i he <;> rw [he] at hl <;>
      simp only [TokenStream.spentOn, Error.isFatal] at hl
    all_goals cases h
    all_goals exact Nat.lt_of_lt_of_le hl hr

def history (s : Session) : History :=
  match _h : s.step with
  | .event event s' =>
    let rest := s'.history
    { rest with events := event :: rest.events }
  | .finished => ⟨[], none⟩
  | .failed e => ⟨[], some e⟩
termination_by s.calculator.stream.load LineReader.characters
decreasing_by exact load_of_step _h

/-! ## Text that comes in during a session -/

/-- A line that follows those there are. -/
def append (s : Session) (line : List Char) : Session :=
  { s with
    calculator.stream.reader.upcoming := s.calculator.stream.reader.upcoming ++ [line] }

/-- The same text with another end: reading fails there for a reason, or just ends. -/
def endingWith (s : Session) (failure : Option String) : Session :=
  { s with calculator.stream.failure := failure }

end Session

/-! ## Writing a session down -/

def Event.text (precision : Nat) : Event → String
  | .result value => s!"={String.ofList (value.generalText precision)}\n"
  | .mistake cause line => s!"{(Error.statement cause line).message}\n"

def Event.bytes (precision : Nat) (event : Event) : List UInt8 :=
  Text.bytesOf (event.text precision).toList

/-- A place that bytes are written to. There may be an end to what it takes, and a reason for that, and
it may refuse to be flushed. -/
structure Writer where
  limit : Option (Nat × String)
  flushFailure : Option String

namespace Writer

/-- A writer that works, or one that refuses everything for a reason. -/
def refusing (reason : Option String) : Writer := ⟨reason.map (0, ·), reason⟩

/-- Writes some bytes: those that come through, and then why no more of them do, or what the writer is
afterwards. -/
def take (w : Writer) (bytes : List UInt8) : List UInt8 × Except String Writer :=
  match w.limit with
  | none => (bytes, .ok w)
  | some (room, reason) =>
    if bytes.length ≤ room then (bytes, .ok { w with limit := some (room - bytes.length, reason) })
    else (bytes.take room, .error reason)

end Writer

/-- What has come through to the two writers, and the error that has ended the session, if one has. -/
structure Delivery where
  output : List UInt8
  diagnostics : List UInt8
  failure : Option Error
  deriving DecidableEq

namespace Delivery

def refused (reason : String) : Delivery := ⟨[], [], some (.io reason)⟩

/-- The same behind what has come through of an event: results are output, mistakes are diagnostics. -/
def behind (d : Delivery) (event : Event) (taken : List UInt8) : Delivery :=
  match event with
  | .result _ => { d with output := taken ++ d.output }
  | .mistake .. => { d with diagnostics := taken ++ d.diagnostics }

end Delivery

/-- Writes a history down up to the first byte that cannot be written. At the end of a session the
output is flushed. -/
def History.deliver (precision : Nat) (h : History) (output diagnostics : Writer) : Delivery :=
  go h.events output diagnostics
where
  go : List Event → Writer → Writer → Delivery
    | [], output, _ => ⟨[], [], h.failure.or (output.flushFailure.map .io)⟩
    | .result value :: events, output, diagnostics =>
      match output.take (Event.bytes precision (.result value)) with
      | (taken, .ok output) => (go events output diagnostics).behind (.result value) taken
      | (taken, .error reason) => (Delivery.refused reason).behind (.result value) taken
    | .mistake cause line :: events, output, diagnostics =>
      match diagnostics.take (Event.bytes precision (.mistake cause line)) with
      | (taken, .ok diagnostics) => (go events output diagnostics).behind (.mistake cause line) taken
      | (taken, .error reason) => (Delivery.refused reason).behind (.mistake cause line) taken

def Source.deliver (source : Source) (precision : Nat) (output diagnostics : Writer) : Delivery :=
  (Session.ofSource source).history.deliver precision output diagnostics

/-! ## Transcripts -/

/-- The plainest writers: each of the two works, or refuses everything for a reason. -/
structure Writers where
  outputFailure : Option String
  diagnosticsFailure : Option String

/-- What has been written, as text, and the error that has ended it, if one has. -/
structure Transcript where
  output : String
  diagnostics : String
  failure : Option Error

def Delivery.transcript (d : Delivery) : Transcript :=
  ⟨String.ofList (Text.decode d.output), String.ofList (Text.decode d.diagnostics), d.failure⟩

def Source.transcript (source : Source) (precision : Nat) (writers : Writers) : Transcript :=
  (source.deliver precision (.refusing writers.outputFailure)
    (.refusing writers.diagnosticsFailure)).transcript

end DeskCalculator
