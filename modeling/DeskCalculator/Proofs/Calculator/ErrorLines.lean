import DeskCalculator.Proofs.Calculator.ErrorPlaces

/-!
# The lines of errors

Whatever was evaluated and discarded before, a calculator stands at an item of its source. So the line of an error is
the line that the item it points at has in the source, and errors that come later are on the same line or below.
-/

namespace DeskCalculator

open TokenStream

theorem invariant_standsAt (source : Source) (symbols : SymbolTable) :
    Invariant symbols fun s => ∃ k, StandsAt source s k where
  taken hs ht := by
    obtain ⟨k, h⟩ := hs
    exact ⟨k + 1, .reads (next_of_standsAt h ht).2.1⟩
  looked hs ht := by
    obtain ⟨k, h⟩ := hs
    exact ⟨k, standsAt_holding h ht⟩

theorem Source.length_lines_ofBytes_le (bytes : List UInt8) (failure : Option String) :
    (ofBytes bytes failure).lines.length ≤ Text.lineCount (Text.decode bytes) := by
  rw [← Text.length_lines, Text.lines, List.length_map, ofBytes, List.length_map]
  split
  · exact List.length_filter_le _ _
  · exact Nat.le_refl _

theorem Source.lineOf_of_end_ofBytes {bytes : List UInt8} {failure : Option String} {k : Nat}
    (h : (ofBytes bytes failure).Answers k (.ok .endOfInput)) :
    (ofBytes bytes failure).lineOf k = Text.lineCount (Text.decode bytes) := by
  obtain ⟨hl, rfl⟩ : (ofBytes bytes failure).lineOf k = (ofBytes bytes failure).lines.length ∧ failure = none :=
    of_answers_end h
  rw [hl, ← Text.length_lines]
  rfl

namespace Calculator

variable {c : Calculator} {source : Source} {k : Nat}

theorem standsAt_after (source : Source) (symbols : SymbolTable) (calls : List Call) :
    ∃ k, StandsAt source ((ofSource source symbols).after calls).stream k := by
  refine invariant_after (invariant_standsAt source) (fun s h => ?_) ⟨0, .reads (readsFrom_ofSource source)⟩ calls
  obtain ⟨k, h⟩ := h
  obtain ⟨k', h'⟩ := skipPast_of_standsAt (show Operator.equals ≠ .plus by decide) (by decide) h
  exact ⟨k', .reads h'⟩

theorem le_line_after (c : Calculator) (calls : List Call) : c.stream.line ≤ (c.after calls).stream.line :=
  invariant_after (I := (c.stream.line ≤ ·.line)) (fun symbols => invariant_le_line symbols c.stream.line)
    (fun s h => Nat.le_trans h (le_line_skipPast .equals s)) (Nat.le_refl _) calls

/-- Nothing is wrong with a text without lines. -/
theorem lines_ne_nil_of_error {cause : Cause} {line : Nat} (hs : StandsAt source c.stream k)
    (h : c.evaluateNext.1 = .error (.statement cause line)) : source.lines ≠ [] := by
  intro hempty
  cases ht : next c.symbols c.stream with
  | mk answer s' =>
    have ha := Source.answers_of_lines_nil hempty (next_of_standsAt hs ht).1
    cases hf : (TokenStream.ofSource source).failure with
    | none =>
      rw [ha, atEnd_of_none hf] at ht
      rw [evaluateNext_of_quit ⟨⟨0, .nil⟩, by simp [ht]⟩ ht rfl] at h
      cases h
    | some reason =>
      rw [ha, atEnd_of_some hf] at ht
      rw [evaluateNext_of_error ⟨⟨0, .nil⟩, by simp [ht]⟩ ht] at h
      cases h

theorem le_line_of_error {cause : Cause} {line : Nat} (h : c.evaluateNext.1 = .error (.statement cause line)) :
    c.stream.line ≤ line := by
  obtain ⟨n, -, hl, -⟩ := pointsAt_of_evaluateNext h
  rw [hl]
  exact le_deliveryLines c.symbols c.stream n

/-- Over any bytes and after any calls, the line of an error is one of the text, it is the line of the item that the
error points at, and no error that is reported later has a smaller one. -/
theorem error_lines (bytes : List UInt8) (failure : Option String) (symbols : SymbolTable) (calls : List Call)
    {cause : Cause} {line : Nat}
    (h : ((ofSource (.ofBytes bytes failure) symbols).after calls).evaluateNext.1 = .error (.statement cause line)) :
    let source := Source.ofBytes bytes failure
    let c := (ofSource source symbols).after calls
    (1 ≤ line ∧ line ≤ Text.lineCount (Text.decode bytes)) ∧
      (∀ later cause' line', (c.evaluateNext.2.after later).evaluateNext.1 = .error (.statement cause' line') →
        line ≤ line') ∧
      ∃ k n, StandsAt source c.stream k ∧ (∀ i, source.Answers (k + i) (c.stream.deliveries c.symbols i)) ∧
        PointsAt (c.stream.deliveries c.symbols) (c.evaluateNext.2.stream.deliveries c.symbols) cause n ∧
        line = source.lineOf (k + n) ∧
        (c.stream.deliveries c.symbols n = .ok .endOfInput → line = Text.lineCount (Text.decode bytes)) := by
  intro source c
  obtain ⟨k, hs⟩ := standsAt_after source symbols calls
  obtain ⟨n, hn, hl, hle⟩ := pointsAt_of_evaluateNext h
  have hitems := deliveries_of_standsAt c.symbols hs
  have hline := hl.trans (hitems n).2
  refine ⟨⟨?_, ?_⟩, ?_, k, n, hs, fun i => (hitems i).1, hn, hline, ?_⟩
  · rw [hline]
    exact Source.one_le_lineOf (lines_ne_nil_of_error hs h) _
  · rw [hline]
    exact Nat.le_trans (source.lineOf_le _) (Source.length_lines_ofBytes_le bytes failure)
  · intro later cause' line' h'
    exact Nat.le_trans hle (Nat.le_trans (le_line_after _ later) (le_line_of_error h'))
  · intro hend
    rw [hline]
    have := (hitems n).1
    rw [hend] at this
    exact Source.lineOf_of_end_ofBytes this

/-- The divisor stands two lines below its operator. -/
theorem error_lines_of_division :
    let source := Source.ofBytes (Text.bytesOf "a\n= 1 /\n\n0".toList) none
    let c := (ofSource source .constants).after [.evaluate, .recover]
    c.evaluateNext.1 = .error (.statement .divideByZero 2) ∧ c.evaluateNext.2.stream.line = 4 ∧
      ∃ k n, StandsAt source c.stream k ∧
        PointsAt (c.stream.deliveries c.symbols) (c.evaluateNext.2.stream.deliveries c.symbols) .divideByZero n ∧
        2 = source.lineOf (k + n) := by
  intro source c
  have h : c.evaluateNext.1 = .error (.statement .divideByZero 2) := by decide +kernel
  obtain ⟨-, -, k, n, hs, -, hn, hl, -⟩ := error_lines _ _ _ _ h
  exact ⟨h, by decide +kernel, k, n, hs, hn, hl⟩

end Calculator

end DeskCalculator
