import DeskCalculator.Proofs.Lexing.Lines
import DeskCalculator.Proofs.Lexing.Longest

/-!
# The items tile their text

The spans of the items stand one behind the other and cover everything but the blanks. `Tiled` follows the text
from a place on; `items_tile` says it of the bytes of the whole text.
-/

namespace DeskCalculator

open Text

/-- The span of the item has the byte in it. -/
def Located.Covers (located : Located) (offset : Nat) : Prop :=
  located.start ≤ offset ∧ offset < located.after.offset

/-- The item stands in the text where its span says, and is the longest that stands there. The two ends of the
span are between characters, and no blank is inside. -/
structure Located.StandsIn (located : Located) (text before spelling : List Char) : Prop where
  text : before ++ (spelling ++ located.after.rest) = text
  start : located.start = utf8Length before
  stop : located.after.offset = utf8Length (before ++ spelling)
  nonempty : located.start < located.after.offset
  solid : ∀ c ∈ spelling, isBlank c = false
  longest : located.item.Longest spelling located.after.rest

/-- Items one behind the other from a byte on, with nothing but blanks before, between and behind them. -/
inductive Tiled : Nat → List Char → List Located → Prop where
  | nil {offset gap} (hg : ∀ c ∈ gap, isBlank c = true) : Tiled offset gap []
  | cons {offset gap item spelling rest items} (hg : ∀ c ∈ gap, isBlank c = true) (hne : spelling ≠ [])
      (hs : ∀ c ∈ spelling, isBlank c = false) (hl : Item.Longest item spelling rest)
      (more : Tiled (offset + utf8Length gap + utf8Length spelling) rest items) :
      Tiled offset (gap ++ (spelling ++ rest))
        (⟨item, offset + utf8Length gap, ⟨offset + utf8Length gap + utf8Length spelling, rest⟩⟩ :: items)

/-! ## The items of a cursor -/

theorem isBlank_of_spelling {cs spelling rest : List Char} {item : Item} (hb : ∀ c ∈ cs.head?, isBlank c = false)
    (h : Item.scan? cs = some (item, spelling, rest)) : ∀ c ∈ spelling, isBlank c = false := by
  intro d hd
  cases Item.begins_of_scan? h with
  | literal hl => exact isBlank_of_mem_literal (NumberLiteral.wellFormed_of_scan? hl) hd
  | word hc ho =>
    apply isBlank_of_isAlphanum
    rcases List.mem_cons.mp hd with rfl | hd
    · simp [Char.isAlphanum, hc]
    · exact ho d hd
  | char =>
    rw [List.mem_singleton.mp hd]
    exact hb _ rfl

theorem utf8Length_pos {text : List Char} (h : text ≠ []) : 0 < utf8Length text := by
  cases text with
  | nil => exact absurd rfl h
  | cons c text =>
    have := c.utf8Size_pos
    simp only [utf8Length]
    omega

theorem append_cons_eq_append {before after xs ys : List Char} {c : Char} (h : before ++ c :: after = xs ++ ys) :
    (∃ more, xs = before ++ c :: more ∧ after = more ++ ys) ∨
      ∃ between, before = xs ++ between ∧ between ++ c :: after = ys := by
  rcases List.append_eq_append_iff.mp h with ⟨between, hx, hy⟩ | ⟨between, hb, hy⟩
  · cases between with
    | nil => exact .inr ⟨[], by simpa using hx.symm, by simpa using hy⟩
    | cons d more =>
      obtain ⟨rfl, rfl⟩ := List.cons.inj hy
      exact .inl ⟨more, hx, rfl⟩
  · exact .inr ⟨between, hb, hy.symm⟩

theorem tiled_items (c : Cursor) : Tiled c.offset c.rest c.items := by
  fun_induction Cursor.items c with
  | case1 c hn =>
    rw [Cursor.next?_eq, Option.map_eq_none_iff] at hn
    exact .nil (by simpa using Item.scan?_eq_none hn)
  | case2 c located hn ih =>
    rw [Cursor.next?_eq, Option.map_eq_some_iff] at hn
    obtain ⟨⟨item, spelling, rest⟩, hs, rfl⟩ := hn
    have hgap : ∀ d ∈ c.rest.takeWhile isBlank, isBlank d = true := fun d hd => List.mem_takeWhile_imp hd
    have hsolid := isBlank_of_spelling (fun d hd => of_mem_head?_dropWhile hd) hs
    have htiled := @Tiled.cons c.offset _ _ _ _ _ hgap (Item.text_ne_nil_of_scan? hs) hsolid
      (Item.longest_of_scan? hs) ih
    rwa [Item.text_append_of_scan? hs, List.takeWhile_append_dropWhile] at htiled

/-! ## What tiles come to -/

namespace Tiled

variable {offset : Nat} {text : List Char} {items : List Located}

theorem le_start (h : Tiled offset text items) : ∀ located ∈ items, offset ≤ located.start := by
  induction h with
  | nil => simp
  | cons _ _ _ _ _ ih =>
    intro located hm
    rcases List.mem_cons.mp hm with rfl | hm
    · exact Nat.le_add_right _ _
    · have := ih located hm
      omega

theorem pairwise (h : Tiled offset text items) :
    items.Pairwise fun located later => located.after.offset ≤ later.start := by
  induction h with
  | nil => exact .nil
  | cons _ _ _ _ more ih => exact .cons more.le_start ih

theorem standsIn (h : Tiled offset text items) {front : List Char} (hf : offset = utf8Length front) :
    ∀ located ∈ items, ∃ before spelling, located.StandsIn (front ++ text) before spelling := by
  induction h generalizing front with
  | nil => simp
  | @cons offset gap item spelling rest items _ hne hs hl _ ih =>
    intro located hm
    rcases List.mem_cons.mp hm with rfl | hm
    · refine ⟨front ++ gap, spelling, ?_⟩
      have := utf8Length_pos hne
      exact ⟨by simp, by simp [utf8Length_append, hf], by simp [utf8Length_append, hf, Nat.add_assoc], by simp; omega,
        hs, hl⟩
    · have hnext := @ih (front ++ (gap ++ spelling)) (by simp only [utf8Length_append]; omega) located hm
      simpa using hnext

/-- A character is outside of all spans if and only if it is a blank. -/
theorem isBlank_iff (h : Tiled offset text items) {before after : List Char} {c : Char}
    (ht : before ++ c :: after = text) :
    isBlank c = true ↔ ∀ located ∈ items, ¬ located.Covers (offset + utf8Length before) := by
  induction h generalizing before with
  | nil hg =>
    subst ht
    simp [hg c]
  | @cons offset gap item spelling rest items hg _ hs _ more ih =>
    have hc := c.utf8Size_pos
    rw [List.forall_mem_cons]
    rcases append_cons_eq_append ht with ⟨gap', rfl, -⟩ | ⟨before, rfl, ht'⟩
    · -- In the gap: everything starts behind it.
      have hlast : utf8Length (before ++ c :: gap') = utf8Length before + c.utf8Size + utf8Length gap' := by
        simp only [utf8Length_append, utf8Length]
        omega
      refine iff_of_true (hg c (by simp)) ⟨?_, ?_⟩
      · rintro ⟨hle, -⟩
        simp only at hle
        omega
      · rintro located hm ⟨hle, -⟩
        have := more.le_start located hm
        omega
    rw [utf8Length_append, ← Nat.add_assoc]
    rcases append_cons_eq_append ht' with ⟨spelling', rfl, -⟩ | ⟨before, rfl, ht''⟩
    · -- In the first span.
      refine iff_of_false (by simp [hs c]) fun hno => hno.1 ⟨?_, ?_⟩
      · exact Nat.le_add_right _ _
      · simp only [utf8Length_append, utf8Length]
        omega
    · -- Behind the first span, where only the others can cover anything.
      rw [utf8Length_append, ← Nat.add_assoc, ← ih ht'']
      refine ⟨fun hb => ⟨?_, hb⟩, fun hb => hb.2⟩
      rintro ⟨-, hlt⟩
      simp only at hlt
      omega

end Tiled

/-- The items of a text cover it but for the blanks, each with the longest lexeme that starts where it does. -/
theorem items_tile (text : List Char) :
    let items := (Cursor.atStart text).items
    (∀ located ∈ items, ∃ before spelling, located.StandsIn text before spelling) ∧
      items.Pairwise (fun located later => located.after.offset ≤ later.start) ∧
      ∀ before c after, before ++ c :: after = text →
        (isBlank c = true ↔ ∀ located ∈ items, ¬ located.Covers (utf8Length before)) := by
  have htiled := tiled_items (.atStart text)
  have hstart : (Cursor.atStart text).offset = utf8Length [] := rfl
  refine ⟨htiled.standsIn hstart, htiled.pairwise, fun before c after ht => ?_⟩
  have h := htiled.isBlank_iff ht
  rwa [show (Cursor.atStart text).offset = 0 from rfl, Nat.zero_add] at h

end DeskCalculator
