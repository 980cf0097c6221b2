import DeskCalculator.Proofs.Lexing.Items
import DeskCalculator.Proofs.Text.Lines

/-!
# The items of the lines of a text

A text is read line by line, and numbering the lines while reading gives every item the line it has in
the whole text: `numberedItems_decode`. Without the numbers, the lines have the items of the text
(`flatMap_itemsOf_lines`).
-/

namespace DeskCalculator

open Text

/-! ## Items with their places -/

namespace Cursor

/-- The items from a place on, with the bytes at which they start. -/
def placed (c : Cursor) : List (Item × Nat) := c.items.map fun located => (located.item, located.start)

theorem placed_of_none {c : Cursor} (h : c.next? = none) : c.placed = [] := by
  rw [placed, items_eq, h]
  rfl

theorem placed_of_some {c : Cursor} {located : Located} (h : c.next? = some located) :
    c.placed = (located.item, located.start) :: located.after.placed := by
  rw [placed, items_eq, h]
  rfl

/-- Where the next item starts and ends. -/
theorem offset_of_next? {c : Cursor} {located : Located} (h : c.next? = some located) :
    c.offset ≤ located.start ∧ located.start ≤ located.after.offset ∧
      located.after.offset + utf8Length located.after.rest = c.offset + utf8Length c.rest := by
  rw [next?_eq, Option.map_eq_some_iff] at h
  obtain ⟨⟨item, spelling, rest⟩, hs, rfl⟩ := h
  have htext := Item.text_append_of_scan? hs
  have hsplit := congrArg utf8Length (List.takeWhile_append_dropWhile (p := isBlank) (l := c.rest))
  rw [utf8Length_append, ← htext, utf8Length_append] at hsplit
  simp only [skipBlanks]
  omega

theorem start_le_of_placed {c : Cursor} {p : Item × Nat} (h : p ∈ c.placed) :
    p.2 ≤ c.offset + utf8Length c.rest := by
  unfold placed at h
  fun_induction items c with
  | case1 c hn => cases h
  | case2 c located hn ih =>
    obtain ⟨-, hstart, hend⟩ := offset_of_next? hn
    rcases List.mem_cons.mp h with rfl | h
    · simp only
      omega
    · have := ih h
      omega

theorem placed_congr {c c' : Cursor} (h : c.next? = c'.next?) : c.placed = c'.placed := by
  cases hn : c'.next? with
  | none => rw [placed_of_none hn, placed_of_none (h.trans hn)]
  | some located => rw [placed_of_some hn, placed_of_some (h.trans hn)]

theorem next?_shift (shift : Nat) (c : Cursor) : (Cursor.mk (c.offset + shift) c.rest).next? =
    c.next?.map fun located => ⟨located.item, located.start + shift,
      ⟨located.after.offset + shift, located.after.rest⟩⟩ := by
  simp only [next?_eq, skipBlanks, Option.map_map]
  congr 1
  funext p
  simp only [Function.comp_apply, Located.mk.injEq, Cursor.mk.injEq, true_and, and_true]
  omega

theorem placed_shift (shift : Nat) (c : Cursor) :
    (Cursor.mk (c.offset + shift) c.rest).placed = c.placed.map fun p => (p.1, p.2 + shift) := by
  induction hl : c.rest.length using Nat.strongRecOn generalizing c with
  | ind n ih =>
    have hshift := next?_shift shift c
    cases hn : c.next? with
    | none =>
      rw [hn] at hshift
      rw [placed_of_none hn, placed_of_none hshift]
      rfl
    | some located =>
      have hlt := length_rest_of_next? hn
      rw [hn] at hshift
      rw [placed_of_some hn, placed_of_some hshift, List.map_cons, ← ih _ (hl ▸ hlt) _ rfl]

theorem next?_append_newline (offset : Nat) (line rest : List Char) :
    (Cursor.mk offset (line ++ '\n' :: rest)).next? =
      match (Cursor.mk offset line).next? with
      | some located => some ⟨located.item, located.start,
          ⟨located.after.offset, located.after.rest ++ '\n' :: rest⟩⟩
      | none => (Cursor.mk (offset + utf8Length line + 1) rest).next? := by
  by_cases hb : line.dropWhile isBlank = []
  · have hline : ∀ c ∈ line, isBlank c = true := by simpa using hb
    have hnone : (Cursor.mk offset line).next? = none := by
      rw [next?_eq]
      simp only [hb]
      rfl
    have htake : (line ++ '\n' :: rest).takeWhile isBlank = line ++ '\n' :: rest.takeWhile isBlank := by
      rw [List.takeWhile_append_of_pos hline, List.takeWhile_cons_of_pos rfl]
    have hdrop : (line ++ '\n' :: rest).dropWhile isBlank = rest.dropWhile isBlank := by
      rw [List.dropWhile_append_of_pos hline, List.dropWhile_cons_of_pos rfl]
    have hskip : offset + utf8Length (line ++ '\n' :: rest.takeWhile isBlank) =
        offset + utf8Length line + 1 + utf8Length (rest.takeWhile isBlank) := by
      rw [utf8Length_append, utf8Length, show '\n'.utf8Size = 1 from rfl]
      omega
    rw [hnone]
    simp only [next?_eq, skipBlanks, htake, hdrop, hskip]
  · have htake : (line ++ '\n' :: rest).takeWhile isBlank = line.takeWhile isBlank := by
      have hlength : (line.takeWhile isBlank).length ≠ line.length := by
        intro he
        have := congrArg List.length (List.takeWhile_append_dropWhile (p := isBlank) (l := line))
        rw [List.length_append, he] at this
        exact hb (List.length_eq_zero_iff.mp (by omega))
      rw [List.takeWhile_append, if_neg hlength]
    have hdrop : (line ++ '\n' :: rest).dropWhile isBlank = line.dropWhile isBlank ++ '\n' :: rest := by
      simp [List.dropWhile_append, hb]
    simp only [next?_eq, skipBlanks, htake, hdrop, Item.scan?_append_newline hb]
    cases hs : Item.scan? (line.dropWhile isBlank) with
    | none => exact absurd (Item.scan?_eq_none hs) hb
    | some p => rfl

theorem placed_append_newline (offset : Nat) (line rest : List Char) :
    (Cursor.mk offset (line ++ '\n' :: rest)).placed =
      (Cursor.mk offset line).placed ++ (Cursor.mk (offset + utf8Length line + 1) rest).placed := by
  induction hl : line.length using Nat.strongRecOn generalizing line offset with
  | ind n ih =>
    have happ := next?_append_newline offset line rest
    cases hn : (Cursor.mk offset line).next? with
    | none =>
      rw [hn] at happ
      rw [placed_of_none hn, placed_congr happ, List.nil_append]
    | some located =>
      have hlt := length_rest_of_next? hn
      obtain ⟨-, -, hend⟩ := offset_of_next? hn
      rw [hn] at happ
      rw [placed_of_some hn, placed_of_some happ, ih _ (hl ▸ hlt) _ _ rfl, List.cons_append, hend]

theorem map_fst_placed (c : Cursor) : c.placed.map Prod.fst = itemsOf c.rest := by
  rw [← map_item_items, placed, List.map_map]
  rfl

end Cursor

theorem itemsOf_append_newline (line rest : List Char) :
    itemsOf (line ++ '\n' :: rest) = itemsOf line ++ itemsOf rest := by
  have h := congrArg (List.map Prod.fst) (Cursor.placed_append_newline 0 line rest)
  simpa only [List.map_append, Cursor.map_fst_placed] using h

/-- Reading bytes line by line loses no item and breaks none. -/
theorem flatMap_itemsOf_lines (bytes : List UInt8) : (lines bytes).flatMap itemsOf = itemsOf (decode bytes) := by
  induction bytes using lines_induction with
  | nil => exact itemsOf_nil.symm
  | last line hne hn => simp [lines_of_not_mem hn hne]
  | line line rest hn ih =>
    rw [lines_append_newline hn, decode_append_newline, List.flatMap_cons, ih, itemsOf_append_newline,
      itemsOf_append_newline, itemsOf_nil, List.append_nil]

/-! ## Items with their lines -/

/-- The items of a text, each with the line on which it stands. -/
def numberedItems (text : List Char) : List (Item × Nat) :=
  (Cursor.atStart text).items.map fun located => (located.item, lineAt text located.start)

theorem numberedItems_eq (text : List Char) :
    numberedItems text = (Cursor.atStart text).placed.map fun p => (p.1, lineAt text p.2) := by
  rw [numberedItems, Cursor.placed, List.map_map]
  rfl

theorem numberedItems_of_line {line : List Char} (h : '\n' ∉ line) :
    numberedItems line = (itemsOf line).map fun item => (item, 1) := by
  rw [numberedItems, itemsOf, List.map_map]
  simp only [lineAt_of_line h]
  rfl

theorem numberedItems_append_newline {line : List Char} (h : '\n' ∉ line) (rest : List Char) :
    numberedItems (line ++ '\n' :: rest) =
      (itemsOf line).map (fun item => (item, 1)) ++ (numberedItems rest).map fun p => (p.1, p.2 + 1) := by
  have hrest : (Cursor.mk (0 + utf8Length line + 1) rest).placed =
      (Cursor.atStart rest).placed.map fun p => (p.1, p.2 + (utf8Length line + 1)) := by
    rw [Nat.add_assoc]
    exact Cursor.placed_shift (utf8Length line + 1) (.atStart rest)
  have hplaced : (Cursor.atStart (line ++ '\n' :: rest)).placed = (Cursor.atStart line).placed ++
      (Cursor.atStart rest).placed.map fun p => (p.1, p.2 + (utf8Length line + 1)) := by
    rw [← hrest]
    exact Cursor.placed_append_newline 0 line rest
  rw [numberedItems_eq, hplaced, List.map_append, ← numberedItems_of_line h, numberedItems_eq, numberedItems_eq]
  congr 1
  · refine List.map_congr_left ?_
    intro p hp
    have hle := Cursor.start_le_of_placed hp
    rw [lineAt_of_line h, lineAt_append_of_le h (by simpa [Cursor.atStart] using hle)]
  · rw [List.map_map, List.map_map]
    refine List.map_congr_left ?_
    intro p _
    simp only [Function.comp_apply, lineAt_append_newline h]

/-- The items of some lines, each with the number of its line, when the first of them has a number. -/
def numberedFrom : Nat → List (List Char) → List (Item × Nat)
  | _, [] => []
  | number, line :: lines => (itemsOf line).map (fun item => (item, number)) ++ numberedFrom (number + 1) lines

theorem numberedFrom_succ (number : Nat) (lines : List (List Char)) :
    numberedFrom (number + 1) lines = (numberedFrom number lines).map fun p => (p.1, p.2 + 1) := by
  induction lines generalizing number with
  | nil => rfl
  | cons line lines ih => simp [numberedFrom, ih (number + 1)]

theorem numberedItems_decode (bytes : List UInt8) :
    numberedFrom 1 (lines bytes) = numberedItems (decode bytes) := by
  induction bytes using lines_induction with
  | nil => rw [numberedItems_of_line (by simp [decode, decodeFrom]), decode, decodeFrom, itemsOf_nil]; rfl
  | last line hne hn =>
    rw [lines_of_not_mem hn hne, numberedItems_of_line (newline_not_mem_decode hn)]
    exact List.append_nil _
  | line line rest hn ih =>
    rw [lines_append_newline hn, decode_append_newline, numberedItems_append_newline (newline_not_mem_decode hn),
      numberedFrom, itemsOf_append_newline, itemsOf_nil, List.append_nil, numberedFrom_succ, ih]

end DeskCalculator
