import DeskCalculator.Proofs.Calculator.Causes
import DeskCalculator.Proofs.Stream.Lines

/-!
# How many evaluations find anything

The items of a text, with the token that was put back, are what evaluating uses up: an answer takes one of
them at least, and where there is no answer the end has been met. Discarding uses nothing up that it needs.
-/

namespace DeskCalculator

open TokenStream

theorem length_itemsOf_le (text : List Char) : (itemsOf text).length ≤ text.length := by
  induction hn : text.length using Nat.strongRecOn generalizing text with
  | ind n ih =>
    rcases itemsOf_cases text with ⟨-, hi⟩ | ⟨item, spelling, rest, -, hi, hlt⟩
    · simp [hi]
    · have := ih rest.length (hn ▸ hlt) rest rfl
      rw [hi, List.length_cons]
      omega

namespace LineReader

def size (r : LineReader) : Nat := r.items.length

theorem size_le_characters (r : LineReader) : r.size ≤ r.characters := by
  have hlines : (r.upcoming.flatMap itemsOf).length ≤ r.upcoming.flatten.length := by
    induction r.upcoming with
    | nil => simp
    | cons line lines ih =>
      have := length_itemsOf_le line
      simp only [List.flatMap_cons, List.flatten_cons, List.length_append]
      omega
  have := length_itemsOf_le r.cursor.rest
  simp only [size, items, characters, List.length_append]
  omega

theorem shrinks_size : Shrinks size where
  takeItem r := by
    simp only [size, items_takeItem, takeItem_fst]
    cases r.items <;> simp
  le_characters := size_le_characters

end LineReader

namespace TokenStream

theorem load_skipPast_equals (s : TokenStream) :
    (skipPast .equals s).2.load LineReader.size ≤ s.load LineReader.size := by
  have hitems := congrArg List.length (@LineReader.items_skipPast .equals (by simp) (by simp) s.reader)
  have hdrop := (List.dropWhile_suffix (l := s.reader.items) fun i => !i.isOperator .equals).length_le
  rw [List.length_tail] at hitems
  rw [snd_skipPast]
  simp only [load, Option.map_none, Option.getD_none]
  split
  · omega
  · simp only [LineReader.size]
    omega

end TokenStream

namespace Calculator

/-- Evaluating has a value or an error to answer, or it meets a word that asks to quit. -/
def answers (c : Calculator) : Bool :=
  match c.evaluateNext.1, (nextOfStatement c.symbols c.stream).1 with
  | .ok .quit, .ok (.keyword .exit) => true
  | .ok .quit, .ok (.identifier name) => name = "x"
  | .ok .quit, _ => false
  | _, _ => true

/-- Evaluating meets the end of the text and quits. -/
def Ended (c : Calculator) : Prop :=
  c.evaluateNext.1 = .ok .quit ∧ (nextOfStatement c.symbols c.stream).1 = .ok .endOfInput

/-- The calculators on which some calls evaluate, one after the other. -/
def evaluations : Calculator → List Call → List Calculator
  | _, [] => []
  | c, .evaluate :: calls => c :: c.evaluateNext.2.evaluations calls
  | c, .recover :: calls => c.recover.2.evaluations calls

variable {c : Calculator}

theorem of_quit (h : c.evaluateNext.1 = .ok .quit) : ∃ token,
    nextOfStatement c.symbols c.stream = (.ok token, c.evaluateNext.2.stream) ∧ token.isQuit = true := by
  obtain ⟨s₀, ho⟩ := exists_opens c.symbols c.stream
  rw [nextOfStatement_eq ho]
  cases hce : c.evaluateNext with
  | mk r c' =>
    rw [hce] at h
    subst h
    generalize hr : (Except.ok .quit : Except Error Outcome) = result at hce
    cases evaluates_of_evaluateNext ho hce with
    | quit ht hq => exact ⟨_, ht, hq⟩
    | @expression _ _ r _ _ _ _ _ => cases r <;> cases hr
    | _ => cases hr

theorem answers_of_quit (h : c.evaluateNext.1 = .ok .quit) : c.answers = true ∨ c.Ended := by
  obtain ⟨token, hn, hq⟩ := of_quit h
  unfold answers Ended
  rw [h, hn]
  cases token with
  | keyword k => cases k <;> first | exact Or.inl rfl | cases hq
  | identifier name => exact Or.inl hq
  | endOfInput => exact Or.inr ⟨rfl, rfl⟩
  | _ => cases hq

theorem ended_of_not_answers (h : c.answers = false) : c.Ended := by
  cases hr : c.evaluateNext.1 with
  | error e =>
    rw [answers, hr] at h
    cases h
  | ok outcome =>
    cases outcome with
    | value v =>
      rw [answers, hr] at h
      cases h
    | quit =>
      rcases answers_of_quit hr with h' | h'
      · rw [h] at h'
        cases h'
      · exact h'

theorem load_of_answers (hf : c.stream.failure = none) (h : c.answers = true) :
    c.evaluateNext.2.stream.load LineReader.size + 1 ≤ c.stream.load LineReader.size := by
  have hl := c.load_evaluateNext LineReader.shrinks_size
  cases hr : c.evaluateNext.1 with
  | error e =>
    have ho := c.ordinary_evaluateNext hr
    cases e with
    | io reason =>
      rw [Error.Ordinary, hf] at ho
      cases ho
    | statement cause line =>
      rw [hr] at hl
      exact hl
  | ok outcome =>
    cases outcome with
    | value v =>
      rw [hr] at hl
      exact hl
    | quit =>
      -- The word that asks to quit is not put back.
      obtain ⟨token, hn, hq⟩ := of_quit hr
      have hload := load_nextOfStatement LineReader.shrinks_size c.symbols c.stream
      have hw : weight token = 1 := by
        rw [answers, hr, hn] at h
        cases token with
        | endOfInput => exact absurd h Bool.false_ne_true
        | keyword | identifier => rfl
        | _ => cases hq
      rw [hn] at hload
      simp only [spent, hw] at hload
      exact hload

/-- Every item answers one evaluation at most, and the evaluations that nothing answers are at the end. -/
theorem countP_evaluations_le (hf : c.stream.failure = none) (calls : List Call) :
    (c.evaluations calls).countP answers ≤ c.stream.load LineReader.size := by
  induction calls generalizing c with
  | nil => simp [evaluations]
  | cons call calls ih =>
    cases call with
    | evaluate =>
      have hrest := ih (c := c.evaluateNext.2) (c.failure_evaluateNext.trans hf)
      rw [evaluations, List.countP_cons]
      by_cases h : c.answers = true
      · have := load_of_answers hf h
        rw [if_pos h]
        omega
      · have := c.load_evaluateNext LineReader.shrinks_size
        rw [if_neg h]
        omega
    | recover =>
      have hrest := ih (c := c.recover.2) ((failure_skipPast .equals c.stream).trans hf)
      exact Nat.le_trans hrest (load_skipPast_equals c.stream)

end Calculator

end DeskCalculator
