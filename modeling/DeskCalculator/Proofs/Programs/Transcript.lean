import DeskCalculator.Proofs.Programs.Session
import DeskCalculator.Proofs.Stream.Lines

/-!
# The transcript of a program

However a program is laid out, its session ends without a failure and has written its verdicts: values
as output, and what is wrong with the other sentences as diagnostics.
-/

namespace DeskCalculator

theorem join_diagnosticLines (cause : Cause) (line : Nat) :
    String.join (diagnosticLines [cause] [line]) = (Error.statement cause line).message ++ "\n" := by
  simp only [diagnosticLines, List.zipWith_cons_cons, List.zipWith_nil_left, String.join_cons, String.join_nil,
    String.append_empty, Error.message]
  rfl

theorem ahead_of_layout {ws : List Spelling} {text : List Char} (hl : Layout ws text)
    (hc : ws.IsChain Separable) :
    (TokenStream.ofSource (.ofBytes (Text.bytesOf text) none)).Ahead ws := by
  refine ⟨rfl, rfl, ?_⟩
  rw [TokenStream.pieces_ofBytes, Text.decode_bytesOf, itemsOf_of_layout hl hc, List.map_map]
  rfl

/-- A program is transcribed as its verdicts, however it is laid out, and there are no others. -/
theorem transcript_of_program (precision : Nat) {env : Environment} (he : env.IsInitial) {p : List Sentence}
    {ws : List Spelling} {text : List Char} (hw : Written env p ws) (hl : Layout ws text) :
    ∃ (rs : List (Except Cause Binary64)) (lines : List Nat), (∀ rs', Verdicts env p rs' ↔ rs' = rs) ∧
      lines.length = (causes rs).length ∧
      (Source.ofBytes (Text.bytesOf text) none).transcript precision ⟨none, none⟩ =
        ⟨String.join (resultLines precision rs), String.join (diagnosticLines (causes rs) lines), none⟩ := by
  obtain rfl := he.unique Environment.isInitial_constants
  obtain ⟨hf, hv⟩ := history_of_written hw (s := .ofSource (.ofBytes (Text.bytesOf text) none)) rfl rfl
    (ready_of_ahead (ahead_of_layout hl (isChain_of_written hw)))
  obtain ⟨lines, hlines, hd⟩ := deliver_of_verdicts precision hf
    (Session.ofSource (.ofBytes (Text.bytesOf text) none)).history.events
  rw [verdicts_iff.mp hv] at hlines hd
  exact ⟨_, lines, fun _ => verdicts_iff, hlines, (transcript_eq _ _ _).trans hd⟩

/-! ## A program with a mistake -/

def Name.a : Name := ⟨'a', [], rfl, by simp, by decide⟩

/-- A digit, and perhaps one behind the point. -/
def Literal.short (whole : Fin 10) (fraction : Option (Fin 10)) : Literal where
  literal := ⟨[Nat.digitChar whole], fraction.map fun digit => [Nat.digitChar digit], none⟩
  wellFormed := by
    have hdigit (n : Fin 10) : (Nat.digitChar n).isDigit = true := by
      revert n
      decide
    refine ⟨by simp [hdigit], ?_, .inl (by simp), by simp⟩
    cases fraction <;> simp [hdigit]

section
variable (n : Fin 10)

def Expr.digit : Expr Atom := .leaf (.literal (.short n none))

def Spelling.digit : Spelling := .atom (.literal (.short n none))

theorem derives_digit : Derives .spellings .primary (.digit n) [.digit n] := .leaf (A := .spellings) _

end

def Expr.a : Expr Atom := .leaf (.name .a)

def Spelling.a : Spelling := .atom (.name .a)

theorem derives_a : Derives .spellings .primary .a [.a] := .leaf (A := .spellings) _

/-- The second sentence divides by zero. -/
def fewSentences : List Sentence :=
  [.declaration .a (.binary .times (.sign .minus (.digit 2))
      (.binary .plus (.digit 3) (.leaf (.literal (.short 0 (some 5)))))),
    .expression (.binary .minus (.binary .remainder (.power .a (.digit 2)) (.digit 4))
      (.binary .divide (.digit 8) (.binary .plus .a (.digit 7)))),
    .expression (.binary .minus (.binary .minus (.digit 1) (.digit 2)) .a)]

section
open Spelling (digit a operator keyword atom)

/-- There is a terminator too many behind the mistake, and the last one is missing. -/
def fewSpellings : List Spelling :=
  [keyword .declare, a, operator .equals, operator .minus, digit 2, operator .times, operator .leftParen, digit 3,
    operator .plus, atom (.literal (.short 0 (some 5))), operator .rightParen, operator .equals,
    keyword .pow, operator .leftParen, a, operator .comma, digit 2, operator .rightParen, operator .remainder, digit 4,
    operator .minus, digit 8, operator .divide, operator .leftParen, a, operator .plus, digit 7, operator .rightParen,
    operator .equals, operator .equals, digit 1, operator .minus, digit 2, operator .minus, a]

end

theorem written_few : Written SymbolTable.constants.find? fewSentences fewSpellings := by
  have hsum {left right : Expr Atom} {ws ws' : List Spelling} (hl : Derives .spellings .primary left ws)
      (hr : Derives .spellings .primary right ws') :
      Derives .spellings (.chain .sum) (.binary .plus left right) (ws ++ .operator .plus :: (ws' ++ [])) :=
    .chain (c := .sum) (derives_product hl) (.rest_cons (k := .plus) rfl (derives_product hr) .rest_nil)
  have hhalf : Derives .spellings .primary (.leaf (Atom.literal (.short 0 (some 5)))) _ := .leaf (A := .spellings) _
  have hfirst := Derives.chain (c := .sum)
    (.chain (c := .product) (@Derives.sign _ _ _ .minus _ _ (derives_digit 2))
      (.rest_cons (k := .times) rfl (.group (hsum (derives_digit 3) hhalf)) .rest_nil)) .rest_nil
  have hpower := Derives.power (derives_sum derives_a) (derives_sum (derives_digit 2))
  have hsecond := Derives.chain (c := .sum)
    (.chain (c := .product) hpower (.rest_cons (k := .remainder) rfl (derives_digit 4) .rest_nil))
    (.rest_cons (k := .minus) rfl
      (.chain (c := .product) (derives_digit 8)
        (.rest_cons (k := .divide) rfl (.group (hsum derives_a (derives_digit 7))) .rest_nil)) .rest_nil)
  have hthird := Derives.chain (c := .sum) (derives_product (derives_digit 1))
    (.rest_cons (k := .minus) rfl (derives_product (derives_digit 2))
      (.rest_cons (k := .minus) rfl (derives_product derives_a) .rest_nil))
  have hyields {env : Environment} {s : Sentence} : s.Yields env (s.tree.evaluate env.value) :=
    Sentence.yields_iff.mpr rfl
  exact .cons (.declaration hfirst) rfl hyields
    (.cons (.expression hsecond) (by simp [Sentence.Admissible, Alphabet.spellings]) hyields
      (.terminator (.last (.expression hthird) (by simp [Sentence.Admissible, Spelling.digit]))))

theorem transcript_of_few_sentences : ∃ line : Nat,
    (Source.ofBytes (Text.bytesOf
      " let a = - 2 * ( 3 + 0.5 ) = pow ( a , 2 ) % 4 - 8 / ( a + 7 ) = = 1 - 2 - a ".toList) none).transcript 6
        ⟨none, none⟩ =
      ⟨"=-7\n=6\n", (Error.statement .divideByZero line).message ++ "\n", none⟩ := by
  have ht : spaced fewSpellings =
      " let a = - 2 * ( 3 + 0.5 ) = pow ( a , 2 ) % 4 - 8 / ( a + 7 ) = = 1 - 2 - a ".toList := by decide
  obtain ⟨rs, lines, hrs, hlen, h⟩ :=
    transcript_of_program 6 Environment.isInitial_constants written_few (layout_spaced fewSpellings)
  obtain rfl := (hrs _).mp (verdicts_iff.mpr rfl)
  have hr : String.join (resultLines 6 (verdicts SymbolTable.constants.find? fewSentences)) = "=-7\n=6\n" := by
    decide +kernel
  have hc : causes (verdicts SymbolTable.constants.find? fewSentences) = [.divideByZero] := by
    decide +kernel
  rw [hc] at hlen h
  rw [hr, ht] at h
  obtain ⟨line, rfl⟩ := List.length_eq_one_iff.mp hlen
  rw [join_diagnosticLines] at h
  exact ⟨line, h⟩

end DeskCalculator
