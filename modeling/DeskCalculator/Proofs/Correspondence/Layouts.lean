import DeskCalculator.Proofs.Correspondence.Sessions
import DeskCalculator.Proofs.Sessions.Endings
import DeskCalculator.Proofs.Stream.Lines

/-!
# Layouts

A session reads the items of its text and nothing else. Texts that differ in blanks and line breaks only
have the same results and the same causes of mistakes, wherever in a line a statement fails and the next
one begins.
-/

namespace DeskCalculator

open TokenStream

/-- Streams with the same pieces, on lines of their own. -/
def Pairing.layouts : Pairing where
  names := id
  lines _ _ := True
  tables σ τ := σ = τ
  streams s t := s.pieces = t.pieces ∧ s.failure = none ∧ t.failure = none

namespace Correspondence

open Pairing

theorem answers_next_layouts {symbols : SymbolTable} {s t : TokenStream} (h : layouts.streams s t) :
    layouts.Answers (fun token token' => token' = token.rename id) (next symbols s) (some (next symbols t)) := by
  obtain ⟨hp, hs, ht⟩ := h
  have hstreams : layouts.streams (next symbols s).2 (next symbols t).2 :=
    ⟨by rw [pieces_next, pieces_next, hp], by rw [failure_next, hs], by rw [failure_next, ht]⟩
  have hsa := next_fst symbols s
  have hta := next_fst symbols t
  simp only [← hp, atEnd, hs, ht] at hsa hta
  generalize next symbols s = p at hsa hstreams ⊢
  generalize next symbols t = q at hta hstreams ⊢
  obtain ⟨r, s'⟩ := p
  obtain ⟨r', t'⟩ := q
  simp only at hsa hta hstreams
  subst hsa hta
  split
  · exact .ok (by simp) hstreams
  · exact .ok (by simp) hstreams
  · exact .mistake (.badToken _) trivial hstreams
  · exact .ok rfl hstreams

def layouts : Correspondence where
  toPairing := .layouts
  lines_line _ := trivial
  map_pushedBack h := by simp [pushedBack_eq_of_pieces h.1, Pairing.layouts]
  streams_holding token h hs := by
    have ht := pushedBack_eq_of_pieces h.1
    rw [hs] at ht
    refine ⟨?_, h.2⟩
    rw [pieces_holding hs, pieces_holding ht, h.1]
    simp [Pairing.layouts]
  answers_next h hst := by
    cases h
    exact answers_next_layouts hst
  answers_skipPast {s t} h := by
    have hstreams : Pairing.layouts.streams (skipPast .equals s).2 (skipPast .equals t).2 :=
      ⟨by rw [pieces_skipPast (by simp) (by simp), pieces_skipPast (by simp) (by simp), h.1],
        by rw [failure_skipPast, h.2.1], by rw [failure_skipPast, h.2.2]⟩
    rw [show skipPast .equals s = (.ok (), (skipPast .equals s).2) from
        Prod.ext (skipPast_of_failure_none h.2.1) rfl,
      show skipPast .equals t = (.ok (), (skipPast .equals t).2) from
        Prod.ext (skipPast_of_failure_none h.2.2) rfl]
    exact .ok rfl hstreams
  results_declare {σ τ} name value h := by
    cases h
    exact results_refl fun cause _ => congrFun Cause.rename_id cause
  isQuit_rename token := by simp [Pairing.layouts]

end Correspondence

theorem sessions_of_items {bytes bytes' : List UInt8}
    (h : itemsOf (Text.decode bytes) = itemsOf (Text.decode bytes')) :
    Pairing.layouts.Sessions (.ofSource (.ofBytes bytes none)) (.ofSource (.ofBytes bytes' none)) :=
  ⟨⟨⟨by simp only [Session.ofSource, pieces_ofBytes, h], rfl, rfl⟩, rfl⟩, rfl⟩

theorem eq_of_transcripts {t t' : Transcript} (h : Pairing.layouts.Transcripts t t') :
    ∃ output failure causes lines lines', lines.length = causes.length ∧ lines'.length = causes.length ∧
      t = ⟨output, String.join (diagnosticLines causes lines), failure⟩ ∧
      t' = ⟨output, String.join (diagnosticLines causes lines'), failure⟩ := by
  obtain ⟨output, diagnostics, failure⟩ := t
  obtain ⟨output', diagnostics', failure'⟩ := t'
  obtain ⟨houtput, hfailure, causes, lines, lines', hlength, hlines, hd, hd'⟩ := h
  simp only [Pairing.layouts, Cause.rename_id, List.map_id] at houtput hfailure hd hd'
  subst houtput hfailure hd hd'
  exact ⟨_, _, causes, lines, lines', hlength, hlines.length_eq ▸ hlength, rfl, rfl⟩

/-- Texts with the same items are one text to a session: the output is the same, the session ends in the same
way, and the diagnostics report the same causes, each at a line of its own text. -/
theorem transcript_of_items {text text' : List Char} (h : itemsOf text = itemsOf text') (precision : Nat)
    (writers : Writers) :
    ∃ output failure causes lines lines', lines.length = causes.length ∧ lines'.length = causes.length ∧
      (Source.ofBytes (Text.bytesOf text) none).transcript precision writers =
        ⟨output, String.join (diagnosticLines causes lines), failure⟩ ∧
      (Source.ofBytes (Text.bytesOf text') none).transcript precision writers =
        ⟨output, String.join (diagnosticLines causes lines'), failure⟩ := by
  have hsessions : Pairing.layouts.Sessions (.ofSource (.ofBytes (Text.bytesOf text) none))
      (.ofSource (.ofBytes (Text.bytesOf text') none)) :=
    sessions_of_items (by rw [Text.decode_bytesOf, Text.decode_bytesOf, h])
  have hwell := (Session.ofSource (.ofBytes (Text.bytesOf text) none)).history_of_failure_none rfl
  rw [transcript_eq, transcript_eq]
  exact eq_of_transcripts
    (Correspondence.layouts.transcripts_of_sessions hsessions hwell.1 precision writers)

/-- A statement that goes wrong in the middle of its lines, on another line in each layout. -/
theorem transcript_of_items_wrapped :
    let text := "let a = 2 +\n  ) 3 ?\n= a =\n\n4".toList
    let text' := "let\na=2+)3?=a=4".toList
    itemsOf text = itemsOf text' ∧
    ∃ output failure causes lines lines', lines.length = causes.length ∧ lines'.length = causes.length ∧
      (Source.ofBytes (Text.bytesOf text) none).transcript 6 ⟨none, none⟩ =
        ⟨output, String.join (diagnosticLines causes lines), failure⟩ ∧
      (Source.ofBytes (Text.bytesOf text') none).transcript 6 ⟨none, none⟩ =
        ⟨output, String.join (diagnosticLines causes lines'), failure⟩ := by
  intro text text'
  have h : itemsOf text = itemsOf text' := by decide +kernel
  exact ⟨h, transcript_of_items h 6 ⟨none, none⟩⟩

end DeskCalculator
