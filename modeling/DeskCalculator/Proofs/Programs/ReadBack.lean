import DeskCalculator.Proofs.Decimal.Rounded
import DeskCalculator.Proofs.Programs.Transcript

/-!
# Results that are typed back

The text of a finite number with 17 digits is one sentence of a program, a literal behind its sign, and the
sentence comes to the number itself.
-/

namespace DeskCalculator

open TokenStream

theorem exists_literal_generalText {units : Nat} (h : Representable units) : ∃ l : Literal,
    (Binary64.finite false units h).generalText maxPrecision = l.literal.text ∧
      l.literal.value = .finite false units h := by
  by_cases hu : units = 0
  · subst hu
    refine ⟨⟨⟨['0'], none, none⟩, ?_⟩, rfl, rfl⟩
    exact ⟨by simp, by simp, Or.inl (by simp), by simp⟩
  · have hpos : 0 < units := Nat.pos_of_ne_zero hu
    obtain ⟨l, hl, ht, hv⟩ := Decimal.denotes_general (.rounded maxPrecision units unitsPerOne) maxPrecision
    refine ⟨⟨l, hl⟩, ?_, Decimal.toBinary64_eq h ?_⟩
    · rw [ht]
      simp [Binary64.generalText, Binary64.signText, hu, maxPrecision]
    · rw [hv]
      exact Decimal.abs_rounded_sub_lt hpos

theorem Layout.adjacent {w : Spelling} {ws : List Spelling} {text : List Char} (rest : Layout ws text)
    (hw : w = .keyword .declare → ∃ c ∈ text.head?, isBlank c = true) : Layout (w :: ws) (w.chars ++ text) :=
  @Layout.cons [] w ws text (by simp) rest hw

/-- The spellings of a number: a literal, behind a minus if the number is negative. -/
theorem exists_spelled (negative : Bool) {units : Nat} (h : Representable units) : ∃ e ws,
    Derives .spellings (.chain .sum) e ws ∧ (∀ n, ws.head? ≠ some (.atom (.name n))) ∧
      Layout (ws ++ [.operator .equals]) ((Binary64.finite negative units h).generalText maxPrecision ++ ['=']) ∧
      ∀ env : Environment, e.evaluate env.value = .ok (.finite negative units h) := by
  obtain ⟨l, ht, hv⟩ := exists_literal_generalText h
  have hleaf : Derives .spellings .primary (.leaf (Atom.literal l)) [.atom (.literal l)] := .leaf (Atom.literal l)
  have hequals : Layout [.operator .equals] ['='] :=
    .adjacent (w := .operator .equals) (@Layout.nil [] (by simp)) (by simp)
  have hlayout : Layout [.atom (.literal l), .operator .equals] (l.literal.text ++ ['=']) :=
    hequals.adjacent (by simp)
  cases negative with
  | false =>
    refine ⟨_, _, derives_sum hleaf, by simp, ?_, fun env => ?_⟩
    · rw [ht]
      exact hlayout
    · exact congrArg Except.ok hv
  | true =>
    refine ⟨_, _, derives_sum (@Derives.sign _ _ _ .minus _ _ hleaf), by simp [Alphabet.spellings], ?_, fun env => ?_⟩
    · rw [show (Binary64.finite true units h).generalText maxPrecision =
        '-' :: (Binary64.finite false units h).generalText maxPrecision by rfl, ht]
      exact hlayout.adjacent (by simp [Alphabet.spellings])
    · exact congrArg (fun v : Binary64 => Except.ok (-v)) hv

/-- What a finite number is printed as with 17 digits evaluates to the number. -/
theorem Calculator.evaluateNext_generalText (symbols : SymbolTable) (negative : Bool) {units : Nat}
    (h : Representable units) :
    (Calculator.mk (.ofSource (.ofBytes
      (Text.bytesOf ((Binary64.finite negative units h).generalText 17 ++ ['='])) none)) symbols).evaluateNext.1 =
      .ok (.value (.finite negative units h)) := by
  obtain ⟨e, ws, hd, hhead, hlayout, hv⟩ := exists_spelled negative h
  have hchain := isChain_append (isChain_of_derives hd) (.singleton (.operator .equals)) (by simp [Spelling.isOperator])
  have hadmissible (env : Environment) : (Sentence.expression e).Admissible env ws := by
    intro name hname
    exact absurd hname (hhead name)
  obtain ⟨c', he, -⟩ := hv _ ▸ reports_expression (c := ⟨_, symbols⟩) ⟨0, .nil⟩ (Or.inl rfl) hd
    (ahead_of_layout hlayout hchain) (hadmissible _)
  exact congrArg Prod.fst he

theorem Binary64.representable_one : Representable 1 := by
  decide +kernel

/-- The largest number below zero. -/
theorem Calculator.evaluateNext_smallest :
    (Calculator.mk (.ofSource (.ofBytes (Text.bytesOf "-4.9406564584124654e-324=".toList) none))
      .constants).evaluateNext.1 = .ok (.value (.finite true 1 Binary64.representable_one)) := by
  have ht : (Binary64.finite true 1 Binary64.representable_one).generalText 17 ++ ['='] =
      "-4.9406564584124654e-324=".toList := by
    decide +kernel
  rw [← ht]
  exact evaluateNext_generalText .constants true Binary64.representable_one

end DeskCalculator
