import DeskCalculator.Proofs.Calculator.Bounds
import DeskCalculator.Proofs.Calculator.Invariants
import DeskCalculator.Proofs.Stream.Exhaustion
import DeskCalculator.Proofs.Text.Lines

/-!
# The end of a session

The end of the text can be met in the middle of a statement, behind one, or while a statement is discarded. Wherever
that is, the call that meets it is the last one that changes anything, and all later calls give the same answers.
-/

namespace DeskCalculator

open TokenStream

variable {symbols : SymbolTable}

theorem invariant_settled (symbols : SymbolTable) : Invariant symbols Settled where
  taken _ ht := settled_of_none (pushedBack_of_next ht)
  looked hs ht := settled_holding hs ht

theorem exhausted_of_reads {part : Part} {s s' : TokenStream} {reason : String} (hp : part ≠ .argument .equals)
    (h : Reads symbols part s (.error (.io reason)) s') : s'.Exhausted ∧ s'.failure = some reason := by
  obtain ⟨s₀, -, hb⟩ := (traced_of_reads h hp).2 _ rfl
  cases hb with
  | unread ht => exact exhausted_of_next_io ht

/-- An evaluation that meets the failure of the input leaves nothing behind. -/
theorem exhausted_of_evaluates {s : TokenStream} {reason : String} {c' : Calculator}
    (h : Evaluates symbols s (.error (.io reason)) c') : c'.stream.Exhausted ∧ c'.stream.failure = some reason := by
  generalize hr : (Except.error (.io reason) : Except Error Outcome) = result at h
  cases h with
  | unread ht | name_unread _ ht | equals_unread _ ht =>
    cases hr
    exact exhausted_of_next_io ht
  | @expression _ _ r _ _ _ _ h =>
    cases r with
    | ok value => cases hr
    | error e =>
      cases hr
      exact exhausted_of_reads (by simp) h
  | value_fails _ h =>
    cases hr
    exact exhausted_of_reads (by simp) h
  | _ => cases hr

/-- Where reading fails, a last line without a newline might as well not be there. -/
theorem Source.ofBytes_append {whole part : List UInt8} (hw : whole.getLast? = some 10 ∨ whole = []) (hp : 10 ∉ part)
    (reason : String) : ofBytes (whole ++ part) (some reason) = ofBytes whole (some reason) := by
  have hpart : (Text.splitLines part).filter (·.getLast? = some 10) = [] := by
    by_cases hn : part = []
    · subst hn
      rfl
    · have hlast : ¬part.getLast? = some 10 := fun h => hp (List.mem_of_getLast? h)
      simp [Text.splitLines_of_not_mem hp hn, hlast]
  have hlines : (Text.splitLines (whole ++ part)).filter (·.getLast? = some 10) =
      (Text.splitLines whole).filter (·.getLast? = some 10) := by
    induction whole using Text.lines_induction with
    | nil => exact hpart
    | last line hne hn =>
      rcases hw with hw | hw
      · exact absurd (List.mem_of_getLast? hw) hn
      · exact absurd hw hne
    | line line rest hn ih =>
      have hrest : rest.getLast? = some 10 ∨ rest = [] := by
        cases rest with
        | nil => exact .inr rfl
        | cons byte rest =>
          rcases hw with hw | hw
          · rw [List.getLast?_append, List.getLast?_cons_cons] at hw
            exact .inl (by simpa using hw)
          · simp at hw
      rw [List.append_assoc, List.cons_append, Text.splitLines_append_newline hn, Text.splitLines_append_newline hn,
        List.filter_cons, List.filter_cons, ih hrest]
  simp only [ofBytes, Option.isSome_some, if_true, hlines]

namespace Calculator

variable {c : Calculator}

theorem evaluateNext_of_exhausted (h : c.stream.Exhausted) : c.evaluateNext = (c.stream.atEnd .quit, c) := by
  have hn := next_of_exhausted c.symbols h
  cases hf : c.stream.failure with
  | none =>
    rw [atEnd_of_none hf] at hn ⊢
    have ho : Opens c.symbols c.stream c.stream := ⟨⟨0, .nil⟩, by simp [hn]⟩
    exact evaluateNext_of_quit ho hn rfl
  | some reason =>
    rw [atEnd_of_some hf] at hn ⊢
    have ho : Opens c.symbols c.stream c.stream := ⟨⟨0, .nil⟩, by simp [hn]⟩
    exact evaluateNext_of_error ho hn

theorem recover_of_exhausted (h : c.stream.Exhausted) : c.recover = (c.stream.atEnd (), c) := by
  rw [recover, skipPast_of_exhausted .equals h]

/-- Nothing is left to evaluate, no call changes the calculator any more, and each answers what the others do. -/
def Stays (c : Calculator) (evaluated : Except Error Outcome) (recovered : Except Error Unit) : Prop :=
  c.stream.Exhausted ∧ ∀ calls,
    c.after calls = c ∧ (c.after calls).evaluateNext.1 = evaluated ∧ (c.after calls).recover.1 = recovered

theorem after_of_exhausted (h : c.stream.Exhausted) (calls : List Call) : c.after calls = c := by
  induction calls with
  | nil => rfl
  | cons call calls ih =>
    cases call with
    | evaluate =>
      have hc : c.evaluateNext.2 = c := by rw [evaluateNext_of_exhausted h]
      exact (congrArg (after · calls) hc).trans ih
    | recover =>
      have hc : c.recover.2 = c := by rw [recover_of_exhausted h]
      exact (congrArg (after · calls) hc).trans ih

theorem stays_of_exhausted (h : c.stream.Exhausted) : c.Stays (c.stream.atEnd .quit) (c.stream.atEnd ()) := by
  refine ⟨h, fun calls => ?_⟩
  rw [after_of_exhausted h calls, evaluateNext_of_exhausted h, recover_of_exhausted h]
  exact ⟨rfl, rfl, rfl⟩

theorem stays_of_failure {reason : String} (h : c.stream.Exhausted) (hf : c.stream.failure = some reason) :
    c.Stays (.error (.io reason)) (.error (.io reason)) := by
  have := stays_of_exhausted h
  rwa [atEnd_of_some hf, atEnd_of_some hf] at this

theorem stays_of_end (h : c.stream.Exhausted) (hf : c.stream.failure = none) : c.Stays (.ok .quit) (.ok ()) := by
  have := stays_of_exhausted h
  rwa [atEnd_of_none hf, atEnd_of_none hf] at this

theorem exhausted_of_ended (hs : c.stream.Settled) (h : c.Ended) :
    c.evaluateNext.2.stream.Exhausted ∧ c.evaluateNext.2.stream.failure = none := by
  obtain ⟨hq, he⟩ := h
  obtain ⟨token, hn, -⟩ := of_quit hq
  obtain ⟨s₀, ho⟩ := exists_opens c.symbols c.stream
  rw [hn] at he
  cases he
  rw [nextOfStatement_eq ho] at hn
  exact exhausted_of_next_end ((invariant_settled c.symbols).of_opens hs ho) hn

theorem exhausted_of_io {reason : String} (h : c.evaluateNext.1 = .error (.io reason)) :
    c.evaluateNext.2.stream.Exhausted ∧ c.evaluateNext.2.stream.failure = some reason := by
  obtain ⟨s₀, ho⟩ := exists_opens c.symbols c.stream
  exact exhausted_of_evaluates (evaluates_of_evaluateNext ho (Prod.ext h rfl))

theorem settled_after (source : Source) (symbols : SymbolTable) (calls : List Call) :
    ((ofSource source symbols).after calls).stream.Settled :=
  invariant_after invariant_settled (fun s _ => settled_of_none (pushedBack_skipPast .equals s))
    (settled_of_none rfl) calls

/-- Whatever is called, in any order: an evaluation that quits since the text has ended is the last call that changes
anything, and so is the first call that meets the failure of the input. A line that the failure has cut off is never
seen. -/
theorem end_stays (source : Source) (symbols : SymbolTable) (calls : List Call) :
    let c := (ofSource source symbols).after calls
    (c.Ended → c.evaluateNext.2.Stays (.ok .quit) (.ok ())) ∧
      (∀ reason, c.evaluateNext.1 = .error (.io reason) →
        c.evaluateNext.2.Stays (.error (.io reason)) (.error (.io reason))) ∧
      (∀ reason, c.recover.1 = .error (.io reason) →
        c.recover.2.Stays (.error (.io reason)) (.error (.io reason))) ∧
      ∀ whole part reason, source = .ofBytes (whole ++ part) (some reason) →
        whole.getLast? = some 10 ∨ whole = [] → 10 ∉ part →
          c = (ofSource (.ofBytes whole (some reason)) symbols).after calls := by
  intro c
  refine ⟨fun h => ?_, fun reason h => ?_, fun reason h => ?_, fun whole part reason hs hw hp => ?_⟩
  · obtain ⟨hs, hf⟩ := exhausted_of_ended (settled_after source symbols calls) h
    exact stays_of_end hs hf
  · obtain ⟨hs, hf⟩ := exhausted_of_io h
    exact stays_of_failure hs hf
  · obtain ⟨hs, hf⟩ := exhausted_of_skipPast_io (Prod.ext h rfl)
    exact stays_of_failure hs hf
  · rw [← Source.ofBytes_append hw hp, ← hs]

/-- The input fails among the arguments of `pow`, behind a statement that was evaluated and discarded. -/
theorem end_stays_in_arguments :
    let c := (ofSource ⟨["let a = 2 = pow(\n".toList, "a\n".toList], some "broken pipe"⟩ .constants).after
      [.evaluate, .recover]
    c.evaluateNext.2.Stays (.error (.io "broken pipe")) (.error (.io "broken pipe")) :=
  (end_stays ⟨["let a = 2 = pow(\n".toList, "a\n".toList], some "broken pipe"⟩ .constants [.evaluate, .recover]).2.1
    "broken pipe" (by decide +kernel)

end Calculator

end DeskCalculator
