import DeskCalculator.Proofs.Correspondence.Sessions
import DeskCalculator.Proofs.Sessions.Accesses
import DeskCalculator.Proofs.Text.Lines

/-!
# Streams that fail

An input that fails is a beginning of one that does not, up to its last whole line. Nothing is read ahead of what
a statement needs, so the session over it does what the other one does until it finds no more text; and
writers that fail end either of them no later.
-/

namespace DeskCalculator

open TokenStream

/-! ## More lines behind those there are -/

namespace LineReader

def followedBy (r : LineReader) (more : List (List Char)) : LineReader := { r with upcoming := r.upcoming ++ more }

variable (more : List (List Char))

theorem itemFrom_followedBy {cursor : Cursor} {line : Nat} {upcoming : List (List Char)} {item : Item}
    {r : LineReader} (h : itemFrom cursor line upcoming = (some item, r)) :
    itemFrom cursor line (upcoming ++ more) = (some item, r.followedBy more) := by
  induction upcoming generalizing cursor line with
  | nil =>
    rw [itemFrom.eq_def] at h ⊢
    cases hn : cursor.next? with
    | none => simp [hn] at h
    | some located =>
      simp only [hn] at h ⊢
      cases h
      rfl
  | cons text upcoming ih =>
    rw [itemFrom.eq_def] at h ⊢
    cases hn : cursor.next? with
    | none =>
      simp only [hn, List.cons_append] at h ⊢
      exact ih h
    | some located =>
      simp only [hn] at h ⊢
      cases h
      rfl

theorem skipFrom_followedBy {target : Char} {cursor : Cursor} {line : Nat} {upcoming : List (List Char)}
    {r : LineReader} (h : skipFrom target cursor line upcoming = (true, r)) :
    skipFrom target cursor line (upcoming ++ more) = (true, r.followedBy more) := by
  induction upcoming generalizing cursor line with
  | nil =>
    rw [skipFrom.eq_def] at h ⊢
    cases hn : cursor.skipPast? target with
    | none => simp [hn] at h
    | some after =>
      simp only [hn] at h ⊢
      cases h
      rfl
  | cons text upcoming ih =>
    rw [skipFrom.eq_def] at h ⊢
    cases hn : cursor.skipPast? target with
    | none =>
      simp only [hn, List.cons_append] at h ⊢
      exact ih h
    | some after =>
      simp only [hn] at h ⊢
      cases h
      rfl

end LineReader

/-- A stream that fails at the end, and one that goes on there. -/
def Pairing.cuts (more : List (List Char)) : Pairing where
  names := id
  lines := Eq
  tables := Eq
  streams s t := (∃ reason, s.failure = some reason) ∧ t = ⟨s.reader.followedBy more, none, s.pushedBack⟩

namespace Correspondence

open Pairing

variable {more : List (List Char)} {symbols : SymbolTable} {s t : TokenStream}

theorem answers_next_cuts (h : (cuts more).streams s t) :
    (cuts more).Answers (fun token token' => token' = token.rename id) (next symbols s) (some (next symbols t)) := by
  obtain ⟨⟨reason, hf⟩, rfl⟩ := h
  unfold next
  cases s.pushedBack with
  | some token => exact .ok (by simp) ⟨⟨reason, hf⟩, rfl⟩
  | none =>
    cases ht : s.reader.takeItem with
    | mk found r =>
      cases found with
      | none =>
        simp only [atEnd, hf]
        exact .cut
      | some item =>
        have hmore : (s.reader.followedBy more).takeItem = (some item, r.followedBy more) :=
          LineReader.itemFrom_followedBy more ht
        simp only [hmore]
        cases item with
        | lexeme lexeme => exact .ok (by simp) ⟨⟨reason, hf⟩, rfl⟩
        | stray c => exact .mistake (.badToken c.toString) rfl ⟨⟨reason, hf⟩, rfl⟩

theorem answers_skipPast_cuts (op : Operator) (h : (cuts more).streams s t) :
    (cuts more).Answers Eq (skipPast op s) (some (skipPast op t)) := by
  obtain ⟨⟨reason, hf⟩, rfl⟩ := h
  unfold skipPast
  simp only
  split
  · exact .ok rfl ⟨⟨reason, hf⟩, rfl⟩
  · cases hs : s.reader.skipPast op.symbol with
    | mk found r =>
      cases found with
      | false =>
        simp only [atEnd, hf]
        exact .cut
      | true =>
        have hmore : (s.reader.followedBy more).skipPast op.symbol = (true, r.followedBy more) :=
          LineReader.skipFrom_followedBy more hs
        simp only [hmore]
        exact .ok rfl ⟨⟨reason, hf⟩, rfl⟩

def cuts (more : List (List Char)) : Correspondence where
  toPairing := .cuts more
  lines_line h := by
    obtain ⟨-, rfl⟩ := h
    rfl
  map_pushedBack h := by
    obtain ⟨-, rfl⟩ := h
    simp [Pairing.cuts]
  streams_holding token h _ := by
    obtain ⟨hf, rfl⟩ := h
    exact ⟨hf, by simp [Pairing.cuts, holding]⟩
  answers_next h hst := by
    cases h
    exact answers_next_cuts hst
  answers_skipPast := answers_skipPast_cuts .equals
  results_declare name value h := by
    cases h
    exact results_refl fun cause _ => congrFun Cause.rename_id cause
  isQuit_rename token := by simp [Pairing.cuts]

end Correspondence

/-! ## Bytes -/

theorem sessions_of_cut (s t : List UInt8) (reason : String) : ∃ more,
    (Pairing.cuts more).Sessions (.ofSource (.ofBytes s (some reason))) (.ofSource (.ofBytes (s ++ t) none)) := by
  obtain ⟨more, hmore⟩ := Text.filter_splitLines_prefix s t
  refine ⟨more.map Text.decode, ⟨⟨⟨⟨reason, rfl⟩, ?_⟩, rfl⟩, rfl⟩⟩
  simp [Session.ofSource, ofSource, Source.ofBytes, LineReader.ofLines, LineReader.followedBy, ← hmore]

/-- Streams that fail only cut a session short, wherever in a line they do: what has come through is a beginning of
what would have come through over more input and without failures, all of that if the session ends well, and
otherwise it ends for the reason of the stream that refused first. -/
theorem delivery_of_failing_streams (s t : List UInt8) (streams : Streams) :
    (∀ reason, ((Source.ofBytes s (some reason)).deliver streams.precision streams.output
          streams.diagnostics).CutShort
        ((Source.ofBytes (s ++ t) none).deliver streams.precision ⟨none, none⟩ ⟨none, none⟩) ∧
      ((Source.ofBytes s (some reason)).deliver streams.precision streams.output streams.diagnostics).failure =
        (streams.firstRefusal [] (Session.ofSource (.ofBytes s (some reason))).accesses).map .io) ∧
    ((Source.ofBytes s none).deliver streams.precision streams.output streams.diagnostics).CutShort
        ((Source.ofBytes s none).deliver streams.precision ⟨none, none⟩ ⟨none, none⟩) ∧
      ((Source.ofBytes s none).deliver streams.precision streams.output streams.diagnostics).failure =
        (streams.firstRefusal [] (Session.ofSource (.ofBytes s none)).accesses).map .io := by
  have hwell (bytes : List UInt8) : (Session.ofSource (.ofBytes bytes none)).history.failure = none :=
    (Session.history_of_failure_none _ rfl).1
  refine ⟨fun reason => ⟨?_, Session.failure_deliver streams _⟩, ?_, Session.failure_deliver streams _⟩
  · obtain ⟨more, hsessions⟩ := sessions_of_cut s t reason
    obtain ⟨⟨common, rest, hevents, hcommon, hrest⟩, -⟩ :=
      (Correspondence.cuts more).histories_of_sessions hsessions
    obtain rfl : common = (Session.ofSource (.ofBytes s (some reason))).history.events := by
      rw [Pairing.eq_map_of_events (fun _ _ => id) hcommon]
      simp [Correspondence.cuts, Pairing.cuts]
    have := cutShort_go streams.precision (hwell (s ++ t))
      (Session.ofSource (.ofBytes s (some reason))).history.events rest hrest streams.output streams.diagnostics
    rwa [← hevents] at this
  · have := cutShort_go streams.precision (h := (Session.ofSource (.ofBytes s none)).history) (hwell s)
      (Session.ofSource (.ofBytes s none)).history.events [] (fun _ => rfl) streams.output streams.diagnostics
    rwa [List.append_nil] at this

-- The output takes one byte of the second line.
example : (Source.ofBytes (Text.bytesOf "1 = 2 = 3 =".toList) none).deliver 6 ⟨some (4, "disk full"), none⟩
    ⟨none, none⟩ = ⟨Text.bytesOf "=1\n=".toList, [], some (.io "disk full")⟩ := by decide +kernel

end DeskCalculator
