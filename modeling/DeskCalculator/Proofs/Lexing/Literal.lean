import Mathlib.Data.List.TakeWhile
import DeskCalculator.NumberLiteral

/-!
# The shape of number literals

`WellFormed` is the pattern of a literal, said apart from `scan?`. Scanning finds well-formed
literals only, and finds each of them where no character follows that could belong to it. A newline
ends a scan just as the end of the text does.
-/

namespace DeskCalculator

/-! ## Longest runs -/

section
variable {p : Char → Bool}

theorem takeWhile_of_head {cs : List Char} (h : ∀ c ∈ cs.head?, p c = false) : cs.takeWhile p = [] := by
  cases cs with
  | nil => rfl
  | cons c cs => simp [h c rfl]

theorem dropWhile_of_head {cs : List Char} (h : ∀ c ∈ cs.head?, p c = false) : cs.dropWhile p = cs := by
  cases cs with
  | nil => rfl
  | cons c cs => simp [h c rfl]

theorem of_mem_head?_dropWhile {cs : List Char} {c : Char} (h : c ∈ (cs.dropWhile p).head?) : p c = false := by
  have hhead := List.head?_dropWhile_not p cs
  rw [Option.mem_def.mp h] at hhead
  simpa using hhead

theorem takeWhile_append_run {xs ys : List Char} (hx : ∀ c ∈ xs, p c = true)
    (hy : ∀ c ∈ ys.head?, p c = false) : (xs ++ ys).takeWhile p = xs := by
  rw [List.takeWhile_append_of_pos hx, takeWhile_of_head hy, List.append_nil]

theorem dropWhile_append_run {xs ys : List Char} (hx : ∀ c ∈ xs, p c = true)
    (hy : ∀ c ∈ ys.head?, p c = false) : (xs ++ ys).dropWhile p = ys := by
  rw [List.dropWhile_append_of_pos hx, dropWhile_of_head hy]

theorem takeWhile_append_stop {d : Char} (hd : p d = false) (cs rest : List Char) :
    (cs ++ d :: rest).takeWhile p = cs.takeWhile p := by
  induction cs with
  | nil => simp [hd]
  | cons c cs ih => by_cases hc : p c = true <;> simp [hc, ih]

theorem dropWhile_append_stop {d : Char} (hd : p d = false) (cs rest : List Char) :
    (cs ++ d :: rest).dropWhile p = cs.dropWhile p ++ d :: rest := by
  induction cs with
  | nil => simp [hd]
  | cons c cs ih => by_cases hc : p c = true <;> simp [hc, ih]

end

/-! ## Exponents -/

namespace ExponentPart

structure WellFormed (e : ExponentPart) : Prop where
  mark : e.mark = 'e' ∨ e.mark = 'E'
  sign : ∀ c ∈ e.sign, c = '+' ∨ c = '-'
  digits_ne_nil : e.digits ≠ []
  digits : ∀ c ∈ e.digits, c.isDigit = true

theorem splitSign_sign {cs : List Char} {c : Char} (h : c ∈ (splitSign cs).1) : c = '+' ∨ c = '-' := by
  unfold splitSign at h
  split at h
  · simp at h; exact Or.inl h.symm
  · simp at h; exact Or.inr h.symm
  · cases h

theorem splitSign_sign_append {sign : Option Char} {cs : List Char} (hs : ∀ c ∈ sign, c = '+' ∨ c = '-')
    (hc : ∀ c ∈ cs.head?, c.isDigit = true) : splitSign (sign.toList ++ cs) = (sign, cs) := by
  cases sign with
  | some c => rcases hs c rfl with rfl | rfl <;> rfl
  | none =>
    cases cs with
    | nil => rfl
    | cons c cs =>
      have hd : c.isDigit = true := hc c rfl
      unfold splitSign
      split
      · next h => cases h; cases hd
      · next h => cases h; cases hd
      · rfl

theorem splitSign_append_newline (cs rest : List Char) :
    splitSign (cs ++ '\n' :: rest) = ((splitSign cs).1, (splitSign cs).2 ++ '\n' :: rest) := by
  cases cs with
  | nil => rfl
  | cons c cs =>
    by_cases hp : c = '+'
    · subst hp; rfl
    · by_cases hm : c = '-'
      · subst hm; rfl
      · simp [splitSign, hp, hm]

theorem wellFormed_of_scan? {cs : List Char} {e : ExponentPart} {rest : List Char}
    (h : scan? cs = some (e, rest)) : e.WellFormed := by
  unfold scan? at h
  split at h
  · cases h
  · split at h
    · next hm =>
      simp only at h
      split at h
      · cases h
      · next hd =>
        cases h
        exact ⟨hm, fun c hc => splitSign_sign hc, hd, fun c hc => List.mem_takeWhile_imp hc⟩
    · cases h

theorem head_of_scan? {cs : List Char} {e : ExponentPart} {rest : List Char} (h : scan? cs = some (e, rest)) :
    ∀ c ∈ rest.head?, c.isDigit = false := by
  unfold scan? at h
  split at h
  · cases h
  · split at h
    · simp only at h
      split at h
      · cases h
      · cases h
        exact fun c => of_mem_head?_dropWhile
    · cases h

theorem scan?_text {e : ExponentPart} (h : e.WellFormed) {rest : List Char}
    (hr : ∀ c ∈ rest.head?, c.isDigit = false) : scan? (e.text ++ rest) = some (e, rest) := by
  obtain ⟨mark, sign, digits⟩ := e
  obtain ⟨hm, hs, hn, hd⟩ := h
  have hdr : ∀ c ∈ (digits ++ rest).head?, c.isDigit = true := by
    intro c hc
    cases digits with
    | nil => exact absurd rfl hn
    | cons d digits => cases hc; exact hd _ (by simp)
  have hsplit : splitSign (sign.toList ++ (digits ++ rest)) = (sign, digits ++ rest) :=
    splitSign_sign_append hs hdr
  simp only [text, List.cons_append, List.append_assoc, scan?, hm, if_true, hsplit,
    takeWhile_append_run hd hr, dropWhile_append_run hd hr]
  rw [if_neg hn]

theorem scan?_eq_none {cs : List Char} (h : ∀ c ∈ cs.head?, c ≠ 'e' ∧ c ≠ 'E') : scan? cs = none := by
  cases cs with
  | nil => rfl
  | cons c cs => simp [scan?, h c rfl]

theorem scan?_append_newline (cs rest : List Char) :
    scan? (cs ++ '\n' :: rest) = (scan? cs).map fun p => (p.1, p.2 ++ '\n' :: rest) := by
  cases cs with
  | nil => simp [scan?]
  | cons c cs =>
    have hn : Char.isDigit '\n' = false := rfl
    by_cases hc : c = 'e' ∨ c = 'E'
    · simp only [List.cons_append, scan?, hc, if_true, splitSign_append_newline,
        takeWhile_append_stop hn, dropWhile_append_stop hn]
      by_cases hd : (splitSign cs).2.takeWhile Char.isDigit = [] <;> simp [hd]
    · simp [scan?, hc]

end ExponentPart

/-! ## Literals -/

namespace NumberLiteral

/-- Digits before the point, after it or both, and perhaps an exponent. -/
structure WellFormed (l : NumberLiteral) : Prop where
  whole : ∀ c ∈ l.whole, c.isDigit = true
  fraction : ∀ f ∈ l.fraction, ∀ c ∈ f, c.isDigit = true
  digit : l.whole ≠ [] ∨ l.fraction.getD [] ≠ []
  exponent : ∀ e ∈ l.exponent, e.WellFormed

theorem wellFormed_withExponent {whole : List Char} {fraction : Option (List Char)} {cs rest : List Char}
    {l : NumberLiteral} (hw : ∀ c ∈ whole, c.isDigit = true)
    (hf : ∀ f ∈ fraction, ∀ c ∈ f, c.isDigit = true) (hd : whole ≠ [] ∨ fraction.getD [] ≠ [])
    (h : withExponent whole fraction cs = (l, rest)) : l.WellFormed := by
  unfold withExponent at h
  split at h
  · next e tail he =>
    cases h
    refine ⟨hw, hf, hd, fun e' h' => ?_⟩
    cases h'
    exact ExponentPart.wellFormed_of_scan? he
  · cases h
    exact ⟨hw, hf, hd, fun e' h' => by cases h'⟩

theorem wellFormed_of_scan? {cs : List Char} {l : NumberLiteral} {rest : List Char}
    (h : scan? cs = some (l, rest)) : l.WellFormed := by
  have hw : ∀ c ∈ cs.takeWhile Char.isDigit, c.isDigit = true := fun c hc => List.mem_takeWhile_imp hc
  unfold scan? at h
  simp only at h
  split at h
  · split at h
    · cases h
    · next tail _ hn =>
      refine wellFormed_withExponent hw ?_ ?_ (Option.some.inj h)
      · intro f hf c hc
        cases hf
        exact List.mem_takeWhile_imp hc
      · by_cases hc : cs.takeWhile Char.isDigit = []
        · exact Or.inr fun ht => hn ⟨hc, ht⟩
        · exact Or.inl hc
  · split at h
    · cases h
    · next hn => exact wellFormed_withExponent hw (fun f hf => by cases hf) (Or.inl hn) (Option.some.inj h)

/-! ## Where a literal ends -/

/-- The literal does not go on with the text. -/
def EndsBefore (l : NumberLiteral) (rest : List Char) : Prop :=
  ∀ c ∈ rest.head?, c.isDigit = false ∧
    (l.exponent = none → c ≠ 'e' ∧ c ≠ 'E' ∧ (l.fraction = none → c ≠ '.'))

/-- No character with which a literal could go on. -/
def Bounded (rest : List Char) : Prop :=
  ∀ c ∈ rest.head?, c.isDigit = false ∧ c ≠ '.' ∧ c ≠ 'e' ∧ c ≠ 'E'

theorem Bounded.endsBefore {rest : List Char} (h : Bounded rest) (l : NumberLiteral) : l.EndsBefore rest := by
  intro c hc
  obtain ⟨hdigit, hdot, he⟩ := h c hc
  exact ⟨hdigit, fun _ => ⟨he.1, he.2, fun _ => hdot⟩⟩

section
variable {whole : List Char} {fraction : Option (List Char)} {exponent : Option ExponentPart} {rest : List Char}
  (h : ∀ e ∈ exponent, e.WellFormed) (hr : EndsBefore ⟨whole, fraction, exponent⟩ rest)
include h hr

theorem withExponent_text : withExponent whole fraction ((exponent.map ExponentPart.text).getD [] ++ rest) =
    (⟨whole, fraction, exponent⟩, rest) := by
  cases exponent with
  | none =>
    have hnone := ExponentPart.scan?_eq_none fun c hc => ⟨((hr c hc).2 rfl).1, ((hr c hc).2 rfl).2.1⟩
    simp [withExponent, hnone]
  | some e => simp [withExponent, ExponentPart.scan?_text (h e rfl) fun c hc => (hr c hc).1]

theorem exponent_head : ∀ c ∈ ((exponent.map ExponentPart.text).getD [] ++ rest).head?,
    c.isDigit = false ∧ (fraction = none → c ≠ '.') := by
  intro c hc
  cases exponent with
  | none => exact ⟨(hr c hc).1, ((hr c hc).2 rfl).2.2⟩
  | some e =>
    simp only [Option.map_some, Option.getD_some, ExponentPart.text, List.cons_append, List.head?_cons,
      Option.mem_def, Option.some.injEq] at hc
    subst hc
    rcases (h e rfl).mark with hm | hm <;> rw [hm] <;> exact ⟨rfl, fun _ => by decide⟩

end

theorem scan?_text_of_endsBefore {l : NumberLiteral} (h : l.WellFormed) {rest : List Char} (hr : l.EndsBefore rest) :
    scan? (l.text ++ rest) = some (l, rest) := by
  obtain ⟨whole, fraction, exponent⟩ := l
  obtain ⟨hw, hf, hd, he⟩ := h
  have hx := exponent_head he hr
  have hend := withExponent_text he hr
  cases fraction with
  | none =>
    have hn : whole ≠ [] := by simpa using hd
    have ht : (NumberLiteral.mk whole none exponent).text ++ rest =
        whole ++ ((exponent.map ExponentPart.text).getD [] ++ rest) := by simp [text]
    rw [ht]
    unfold scan?
    simp only [takeWhile_append_run hw fun c hc => (hx c hc).1,
      dropWhile_append_run hw fun c hc => (hx c hc).1]
    split
    · next tail hdot => exact absurd rfl ((hx '.' (by rw [hdot]; rfl)).2 rfl)
    · rw [if_neg hn, hend]
  | some f =>
    have hpoint : ∀ c ∈ ('.' :: (f ++ ((exponent.map ExponentPart.text).getD [] ++ rest))).head?,
        c.isDigit = false := by
      intro c hc
      cases hc
      rfl
    have ht : (NumberLiteral.mk whole (some f) exponent).text ++ rest =
        whole ++ '.' :: (f ++ ((exponent.map ExponentPart.text).getD [] ++ rest)) := by simp [text]
    rw [ht]
    unfold scan?
    simp only [takeWhile_append_run hw hpoint, dropWhile_append_run hw hpoint,
      takeWhile_append_run (hf f rfl) fun c hc => (hx c hc).1,
      dropWhile_append_run (hf f rfl) fun c hc => (hx c hc).1]
    rw [if_neg (fun hn => by rcases hd with h | h <;> simp_all), hend]

theorem scan?_text {l : NumberLiteral} (h : l.WellFormed) {rest : List Char} (hr : Bounded rest) :
    scan? (l.text ++ rest) = some (l, rest) := scan?_text_of_endsBefore h (hr.endsBefore l)

theorem head_of_withExponent {whole : List Char} {fraction : Option (List Char)} {cs rest : List Char}
    {l : NumberLiteral} (hcs : ∀ c ∈ cs.head?, c.isDigit = false) (h : withExponent whole fraction cs = (l, rest)) :
    (∀ c ∈ rest.head?, c.isDigit = false) ∧ (l.exponent = none → rest = cs) := by
  unfold withExponent at h
  split at h
  · next e tail he =>
    cases h
    exact ⟨ExponentPart.head_of_scan? he, nofun⟩
  · cases h
    exact ⟨hcs, fun _ => rfl⟩

/-- Behind a literal stands no digit, and no point unless the literal has a fraction or an exponent. -/
theorem head_of_scan? {cs rest : List Char} {l : NumberLiteral} (h : scan? cs = some (l, rest)) :
    ∀ c ∈ rest.head?, c.isDigit = false ∧ (l.exponent = none → l.fraction = none → c ≠ '.') := by
  have hdigits (cs : List Char) : ∀ c ∈ (cs.dropWhile Char.isDigit).head?, c.isDigit = false :=
    fun c => of_mem_head?_dropWhile
  unfold scan? at h
  simp only at h
  split at h
  · split at h
    · cases h
    · next tail _ _ =>
      have hl := fraction_withExponent (cs.takeWhile Char.isDigit) (some (tail.takeWhile Char.isDigit))
        (tail.dropWhile Char.isDigit)
      have hw := Option.some.inj h
      rw [hw] at hl
      intro c hc
      refine ⟨(head_of_withExponent (hdigits tail) hw).1 c hc, fun _ hf => ?_⟩
      rw [hf] at hl
      cases hl
  · next hdot =>
    split at h
    · cases h
    · have hw := Option.some.inj h
      obtain ⟨hdigit, hrest⟩ := head_of_withExponent (hdigits cs) hw
      intro c hc
      refine ⟨hdigit c hc, fun he _ => ?_⟩
      rw [hrest he] at hc
      rintro rfl
      cases hd : cs.dropWhile Char.isDigit with
      | nil => rw [hd] at hc; cases hc
      | cons d tail =>
        rw [hd] at hc
        cases hc
        exact hdot tail hd

theorem scan?_cons_eq_none_iff {c : Char} {cs : List Char} :
    scan? (c :: cs) = none ↔ c.isDigit = false ∧ (c = '.' → ∀ d ∈ cs.head?, d.isDigit = false) := by
  unfold scan?
  by_cases hc : c.isDigit = true
  · simp only [List.takeWhile_cons_of_pos hc, List.dropWhile_cons_of_pos hc]
    split <;> simp [hc]
  · simp only [List.takeWhile_cons_of_neg hc, List.dropWhile_cons_of_neg hc]
    by_cases hdot : c = '.'
    · subst hdot
      cases cs with
      | nil => simp
      | cons d cs => cases hd : d.isDigit <;> simp [hd]
    · split
      · next h =>
        cases h
        exact absurd rfl hdot
      · simp [hc, hdot]

theorem withExponent_append_newline (whole : List Char) (fraction : Option (List Char)) (cs rest : List Char) :
    withExponent whole fraction (cs ++ '\n' :: rest) =
      ((withExponent whole fraction cs).1, (withExponent whole fraction cs).2 ++ '\n' :: rest) := by
  unfold withExponent
  rw [ExponentPart.scan?_append_newline]
  cases ExponentPart.scan? cs <;> rfl

theorem scan?_append_newline (cs rest : List Char) :
    scan? (cs ++ '\n' :: rest) = (scan? cs).map fun p => (p.1, p.2 ++ '\n' :: rest) := by
  have hn : Char.isDigit '\n' = false := rfl
  unfold scan?
  simp only [takeWhile_append_stop hn, dropWhile_append_stop hn]
  cases hd : cs.dropWhile Char.isDigit with
  | nil =>
    by_cases hw : cs.takeWhile Char.isDigit = []
    · simp [hw]
    · simpa [hw] using withExponent_append_newline (cs.takeWhile Char.isDigit) none [] rest
  | cons c tail =>
    by_cases hc : c = '.'
    · subst hc
      by_cases hw : cs.takeWhile Char.isDigit = [] ∧ tail.takeWhile Char.isDigit = []
      · simp [takeWhile_append_stop hn, hw]
      · simp only [List.cons_append, takeWhile_append_stop hn, dropWhile_append_stop hn, hw, if_false,
          withExponent_append_newline, Option.map_some]
    · by_cases hw : cs.takeWhile Char.isDigit = []
      · simp [hc, hw]
      · simpa [hc, hw] using withExponent_append_newline (cs.takeWhile Char.isDigit) none (c :: tail) rest

end NumberLiteral

end DeskCalculator
