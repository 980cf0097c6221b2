import DeskCalculator.Proofs.Text.Decoding

/-!
# The lines of a text

Bytes are split into lines before they are decoded. `lineAt` and `lineCount` count the lines of the whole
text instead, by its newlines; `length_lines` says that these are as many.
-/

namespace DeskCalculator.Text

/-! ## Lines -/

@[elab_as_elim]
theorem lines_induction {motive : List UInt8 → Prop} (nil : motive [])
    (last : ∀ line, line ≠ [] → 10 ∉ line → motive line)
    (line : ∀ line rest, 10 ∉ line → motive rest → motive (line ++ 10 :: rest)) (bytes : List UInt8) :
    motive bytes := by
  induction hl : bytes.length using Nat.strongRecOn generalizing bytes with
  | ind n ih =>
    by_cases hn : 10 ∈ bytes
    · obtain ⟨front, rest, rfl, hfront⟩ := List.eq_append_cons_of_mem hn
      refine line front rest hfront (ih rest.length ?_ rest rfl)
      rw [← hl, List.length_append, List.length_cons]
      omega
    · by_cases hb : bytes = []
      · subst hb
        exact nil
      · exact last bytes hb hn

/-- The same for characters; the last line may be empty here. -/
@[elab_as_elim]
theorem newline_induction {motive : List Char → Prop} (last : ∀ line, '\n' ∉ line → motive line)
    (line : ∀ line rest, '\n' ∉ line → motive rest → motive (line ++ '\n' :: rest)) (text : List Char) :
    motive text := by
  induction hl : text.length using Nat.strongRecOn generalizing text with
  | ind n ih =>
    by_cases hn : '\n' ∈ text
    · obtain ⟨front, rest, rfl, hfront⟩ := List.eq_append_cons_of_mem hn
      refine line front rest hfront (ih rest.length ?_ rest rfl)
      rw [← hl, List.length_append, List.length_cons]
      omega
    · exact last text hn

theorem splitLines_append_newline {line : List UInt8} (h : 10 ∉ line) (rest : List UInt8) :
    splitLines (line ++ 10 :: rest) = (line ++ [10]) :: splitLines rest := by
  induction line with
  | nil => simp [splitLines]
  | cons byte line ih =>
    rw [List.mem_cons, not_or] at h
    rw [List.cons_append, splitLines, if_neg (Ne.symm h.1), ih h.2]
    rfl

theorem splitLines_of_not_mem {line : List UInt8} (h : 10 ∉ line) (hne : line ≠ []) :
    splitLines line = [line] := by
  induction line with
  | nil => exact absurd rfl hne
  | cons byte line ih =>
    rw [List.mem_cons, not_or] at h
    rw [splitLines, if_neg (Ne.symm h.1)]
    by_cases hl : line = []
    · subst hl
      rfl
    · rw [ih h.2 hl]

/-- Where an unfinished last line is left out, the other lines are still the first ones. -/
theorem filter_splitLines_prefix (s t : List UInt8) :
    (splitLines s).filter (·.getLast? = some 10) <+: splitLines (s ++ t) := by
  induction s using lines_induction with
  | nil => exact List.nil_prefix
  | last line hne hn =>
    have hlast : line.getLast? ≠ some 10 := fun h => hn (List.mem_of_getLast? h)
    simp [splitLines_of_not_mem hn hne, hlast]
  | line line rest hn ih =>
    rw [splitLines_append_newline hn, List.append_assoc, List.cons_append, splitLines_append_newline hn]
    simpa using ih

/-- The lines of some bytes, each as text. -/
def lines (bytes : List UInt8) : List (List Char) := (splitLines bytes).map decode

theorem lines_append_newline {line : List UInt8} (h : 10 ∉ line) (rest : List UInt8) :
    lines (line ++ 10 :: rest) = (decode line ++ ['\n']) :: lines rest := by
  rw [lines, splitLines_append_newline h, List.map_cons, decode_append_newline]
  rfl

theorem lines_of_not_mem {line : List UInt8} (h : 10 ∉ line) (hne : line ≠ []) : lines line = [decode line] := by
  rw [lines, splitLines_of_not_mem h hne]
  rfl

/-! ## Places in a text -/

/-- The characters of a text that start before a byte. -/
def before : List Char → Nat → List Char
  | [], _ => []
  | c :: text, offset => if offset = 0 then [] else c :: before text (offset - c.utf8Size)

/-- The line on which a byte stands: one more than there are newlines before it. -/
def lineAt (text : List Char) (offset : Nat) : Nat := (before text offset).count '\n' + 1

/-- How many lines a text has. The last one need not end with a newline. -/
def lineCount (text : List Char) : Nat :=
  text.count '\n' + if text.getLast?.any (· ≠ '\n') then 1 else 0

theorem utf8Length_append (text text' : List Char) :
    utf8Length (text ++ text') = utf8Length text + utf8Length text' := by
  induction text with
  | nil => simp [utf8Length]
  | cons c text ih => simp only [List.cons_append, utf8Length, ih, Nat.add_assoc]

theorem mem_of_mem_before {c : Char} {text : List Char} {offset : Nat} (h : c ∈ before text offset) : c ∈ text := by
  induction text generalizing offset with
  | nil => cases h
  | cons d text ih =>
    unfold before at h
    split at h
    · cases h
    · rcases List.mem_cons.mp h with rfl | h
      · exact List.mem_cons_self
      · exact List.mem_cons_of_mem _ (ih h)

theorem before_append (front rest : List Char) (offset : Nat) :
    before (front ++ rest) (utf8Length front + offset) = front ++ before rest offset := by
  induction front with
  | nil => simp [utf8Length]
  | cons c front ih =>
    have hc := c.utf8Size_pos
    rw [List.cons_append, before, utf8Length, if_neg (by omega), List.cons_append,
      show c.utf8Size + utf8Length front + offset - c.utf8Size = utf8Length front + offset by omega, ih]

theorem before_append_of_le {front : List Char} {offset : Nat} (h : offset ≤ utf8Length front) (rest : List Char) :
    before (front ++ rest) offset = before front offset := by
  induction front generalizing offset with
  | nil =>
    obtain rfl : offset = 0 := by simpa [utf8Length] using h
    cases rest <;> simp [before]
  | cons c front ih =>
    rw [utf8Length] at h
    rw [List.cons_append, before, before, ih (by omega)]

theorem lineAt_of_line {line : List Char} (h : '\n' ∉ line) (offset : Nat) : lineAt line offset = 1 := by
  rw [lineAt, List.count_eq_zero.mpr fun hm => h (mem_of_mem_before hm)]

theorem lineAt_append_of_le {line : List Char} (h : '\n' ∉ line) {offset : Nat} (ho : offset ≤ utf8Length line)
    (rest : List Char) : lineAt (line ++ rest) offset = 1 := by
  rw [lineAt, before_append_of_le ho]
  exact lineAt_of_line h offset

theorem lineAt_append_newline {line : List Char} (h : '\n' ∉ line) (rest : List Char) (offset : Nat) :
    lineAt (line ++ '\n' :: rest) (offset + (utf8Length line + 1)) = lineAt rest offset + 1 := by
  have hb : before (line ++ '\n' :: rest) (offset + (utf8Length line + 1)) = line ++ '\n' :: before rest offset := by
    rw [Nat.add_comm offset, Nat.add_assoc, before_append, before, if_neg (by omega),
      show 1 + offset - '\n'.utf8Size = offset by simp [Char.utf8Size]]
  rw [lineAt, lineAt, hb, List.count_append, List.count_eq_zero.mpr h, List.count_cons_self, Nat.zero_add]

theorem lineCount_append_newline {line : List Char} (h : '\n' ∉ line) (rest : List Char) :
    lineCount (line ++ '\n' :: rest) = lineCount rest + 1 := by
  have hl : (line ++ '\n' :: rest).getLast?.any (· ≠ '\n') = rest.getLast?.any (· ≠ '\n') := by
    rw [List.getLast?_append, List.getLast?_cons]
    cases rest.getLast? <;> simp
  rw [lineCount, lineCount, hl, List.count_append, List.count_eq_zero.mpr h, List.count_cons_self]
  omega

theorem lineCount_of_line {line : List Char} (h : '\n' ∉ line) (hne : line ≠ []) : lineCount line = 1 := by
  have hl : line.getLast?.any (· ≠ '\n') = true := by
    rw [List.getLast?_eq_some_getLast hne, Option.any_some, decide_eq_true_eq]
    exact fun he => h (he ▸ List.getLast_mem hne)
  rw [lineCount, List.count_eq_zero.mpr h, hl]
  rfl

theorem length_lines (bytes : List UInt8) : (lines bytes).length = lineCount (decode bytes) := by
  induction bytes using lines_induction with
  | nil => rfl
  | last line hne hn =>
    rw [lines_of_not_mem hn hne, lineCount_of_line (newline_not_mem_decode hn) (decode_ne_nil hne)]
    rfl
  | line line rest hn ih =>
    rw [lines_append_newline hn, decode_append_newline, lineCount_append_newline (newline_not_mem_decode hn),
      List.length_cons, ih]

end DeskCalculator.Text
