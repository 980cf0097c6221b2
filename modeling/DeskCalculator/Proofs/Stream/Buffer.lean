import DeskCalculator.Proofs.Lexing.Lines
import DeskCalculator.Proofs.Lexing.Longest
import DeskCalculator.Proofs.Stream.Discarding

/-!
# Lines in a buffer

A line reader has what is left of its line. A buffer has the whole line, and a byte in it as its cursor: it lexes a slice
of the line for every item, looks a stray character up there, and moves the cursor by what it finds. A slice that does
not exist is a fault, and so is a character where none stands. Buffers never come to one, and read what line readers read
(`agrees_takeItem`, `agrees_skipPast`).
-/

namespace DeskCalculator

/-! ## Places in a line -/

namespace Text

/-- The text from a byte on. There is none behind the end, and none inside a character. -/
def sliceFrom? : List Char → Nat → Option (List Char)
  | text, 0 => some text
  | [], _ + 1 => none
  | c :: text, offset + 1 =>
    if c.utf8Size ≤ offset + 1 then sliceFrom? text (offset + 1 - c.utf8Size) else none

/-- The byte at which a character stands for the first time. -/
def find? (target : Char) : List Char → Option Nat
  | [] => none
  | c :: text => if c = target then some 0 else (find? target text).map (c.utf8Size + ·)

theorem sliceFrom?_zero (text : List Char) : sliceFrom? text 0 = some text := by
  cases text <;> rfl

theorem sliceFrom?_append (front rest : List Char) (offset : Nat) :
    sliceFrom? (front ++ rest) (utf8Length front + offset) = sliceFrom? rest offset := by
  induction front with
  | nil => rw [utf8Length, Nat.zero_add, List.nil_append]
  | cons c front ih =>
    have hc := c.utf8Size_pos
    obtain ⟨n, hn⟩ : ∃ n, utf8Length (c :: front) + offset = n + 1 :=
      Nat.exists_eq_add_one.mpr (by simp only [utf8Length]; omega)
    have hrest : n + 1 - c.utf8Size = utf8Length front + offset := by
      rw [← hn, utf8Length]
      omega
    rw [utf8Length] at hn
    rw [utf8Length, hn, List.cons_append, sliceFrom?, if_pos (by omega), hrest, ih]

theorem sliceFrom?_eq_some_iff {text rest : List Char} {offset : Nat} :
    sliceFrom? text offset = some rest ↔ ∃ before, before ++ rest = text ∧ utf8Length before = offset := by
  constructor
  · intro h
    fun_induction sliceFrom? text offset with
    | case1 text =>
      cases h
      exact ⟨[], rfl, rfl⟩
    | case2 => cases h
    | case3 c text offset hle ih =>
      obtain ⟨before, rfl, hb⟩ := ih h
      refine ⟨c :: before, rfl, ?_⟩
      rw [utf8Length]
      omega
    | case4 => cases h
  · rintro ⟨before, rfl, rfl⟩
    have := sliceFrom?_append before rest 0
    rwa [Nat.add_zero, sliceFrom?_zero] at this

/-- A slice of a slice. -/
theorem sliceFrom?_trans {text slice rest : List Char} {offset more : Nat} (h : sliceFrom? text offset = some slice)
    (h' : sliceFrom? slice more = some rest) : sliceFrom? text (offset + more) = some rest := by
  obtain ⟨before, rfl, rfl⟩ := sliceFrom?_eq_some_iff.mp h
  rw [sliceFrom?_append, h']

theorem find?_cases (target : Char) (text : List Char) : (find? target text = none ∧ target ∉ text) ∨
    ∃ before rest, before ++ target :: rest = text ∧ target ∉ before ∧ find? target text = some (utf8Length before) := by
  induction text with
  | nil => exact .inl ⟨rfl, List.not_mem_nil⟩
  | cons c text ih =>
    by_cases hc : c = target
    · subst hc
      exact .inr ⟨[], text, rfl, List.not_mem_nil, if_pos rfl⟩
    · rcases ih with ⟨hf, hn⟩ | ⟨before, rest, rfl, hn, hf⟩
      · exact .inl ⟨by simp [find?, hc, hf], by simp [Ne.symm hc, hn]⟩
      · exact .inr ⟨c :: before, rest, rfl, by simp [Ne.symm hc, hn], by simp [find?, hc, hf, utf8Length]⟩

end Text

open Text

/-! ## Buffers -/

/-- The line that is being read, and the byte from which on it is still to be read. The lines to come are bytes. -/
structure LineBuffer where
  text : List Char
  cursor : Nat
  line : Nat
  unread : List (List UInt8)

namespace LineBuffer

/-- What a buffer may ask for in vain. -/
inductive Fault where
  | slice (offset : Nat)
  | character (offset : Nat)

def ofLines (lines : List (List UInt8)) : LineBuffer := ⟨[], 0, 0, lines⟩

def sliceFrom (text : List Char) (offset : Nat) : Except Fault (List Char) :=
  match sliceFrom? text offset with
  | some slice => .ok slice
  | none => .error (.slice offset)

def charAt (text : List Char) (offset : Nat) : Except Fault Char := do
  match ← sliceFrom text offset with
  | c :: _ => return c
  | [] => throw (.character offset)

/-- The next item in a line, and the byte behind it. Of a stray character the lexer says only where it is. -/
def lookItem (text : List Char) (cursor : Nat) : Except Fault (Option (Option Item × Nat)) := do
  match (Cursor.atStart (← sliceFrom text cursor)).next? with
  | some ⟨.lexeme lexeme, _, after⟩ => return some (some (.lexeme lexeme), cursor + after.offset)
  | some ⟨.stray _, start, _⟩ =>
    let bad ← charAt text (cursor + start)
    return some (some (.stray bad), cursor + start + bad.utf8Size)
  | none => return none

/-- The byte behind the next occurrence of a character in a line. -/
def lookPast (target : Char) (text : List Char) (cursor : Nat) : Except Fault (Option (Bool × Nat)) := do
  match find? target (← sliceFrom text cursor) with
  | some offset => return some (true, cursor + offset + target.utf8Size)
  | none => return none

section
variable {α : Type} (look : List Char → Nat → Except Fault (Option (α × Nat))) (missing : α)

/-- Looks at one line after the other. Behind the last one the buffer is empty. -/
def seek (text : List Char) (cursor line : Nat) (unread : List (List UInt8)) : Except Fault (α × LineBuffer) :=
  match look text cursor, unread with
  | .error fault, _ => .error fault
  | .ok (some (found, cursor)), unread => .ok (found, ⟨text, cursor, line, unread⟩)
  | .ok none, [] => .ok (missing, ⟨[], 0, line, []⟩)
  | .ok none, bytes :: unread => seek (decode bytes) 0 (line + 1) unread

end

def takeItem (b : LineBuffer) : Except Fault (Option Item × LineBuffer) :=
  seek lookItem none b.text b.cursor b.line b.unread

def skipPast (b : LineBuffer) (target : Char) : Except Fault (Bool × LineBuffer) :=
  seek (lookPast target) false b.text b.cursor b.line b.unread

/-! ## What buffers are to readers -/

/-- The reader has the same place in the same line, and the same lines to come. -/
structure Shows (b : LineBuffer) (r : LineReader) : Prop where
  slice : sliceFrom? b.text b.cursor = some r.cursor.rest
  cursor : b.cursor = r.cursor.offset
  line : b.line = r.line
  upcoming : b.unread.map decode = r.upcoming

/-- The cursor is on a boundary between characters of the text, or at one of its ends, and the text is the one line of
the input that has the number, or nothing. -/
structure Valid (lines : List (List UInt8)) (b : LineBuffer) : Prop where
  bound : b.cursor ≤ utf8Length b.text
  boundary : ∃ before after, before ++ after = b.text ∧ utf8Length before = b.cursor
  line : b.text = [] ∨ ∃ bytes, 0 < b.line ∧ lines[b.line - 1]? = some bytes ∧ b.text = decode bytes
  unread : b.unread <+: lines.drop b.line

/-- The character stands right before the cursor. -/
def IsBehind (b : LineBuffer) (c : Char) : Prop :=
  ∃ before after, before ++ c :: after = b.text ∧ utf8Length (before ++ [c]) = b.cursor

/-- The call comes to no fault, answers as the reader does, and leaves a buffer that shows what the reader becomes. -/
def Agrees {α : Type} (lines : List (List UInt8)) (call : Except Fault (α × LineBuffer)) (read : α × LineReader) : Prop :=
  ∃ b, call = .ok (read.1, b) ∧ b.Shows read.2 ∧ b.Valid lines

/-- To look at a line with a cursor in it finds what is found in what is left of the line. -/
def Finds {α : Type} (look : List Char → Nat → Except Fault (Option (α × Nat))) (find : Cursor → Option (α × Cursor)) :
    Prop :=
  ∀ text cursor rest, sliceFrom? text cursor = some rest →
    look text cursor = .ok ((find ⟨cursor, rest⟩).map fun p => (p.1, p.2.offset)) ∧
      ∀ found after, find ⟨cursor, rest⟩ = some (found, after) → sliceFrom? text after.offset = some after.rest

/-! ## One line -/

theorem sliceFrom_eq_ok_iff {text slice : List Char} {offset : Nat} :
    sliceFrom text offset = .ok slice ↔ sliceFrom? text offset = some slice := by
  unfold sliceFrom
  cases sliceFrom? text offset <;> simp

theorem charAt_eq_ok_iff {text : List Char} {offset : Nat} {c : Char} :
    charAt text offset = .ok c ↔ ∃ rest, sliceFrom? text offset = some (c :: rest) := by
  unfold charAt sliceFrom
  cases sliceFrom? text offset with
  | none => simp [bind, Except.bind]
  | some slice => cases slice <;> simp [bind, Except.bind, pure, Except.pure, throw, throwThe, MonadExceptOf.throw]

/-- Where the next item of a text stands, and what follows it. -/
theorem slice_of_next? {text : List Char} {located : Located} (h : (Cursor.atStart text).next? = some located) :
    ∃ spelling, sliceFrom? text located.start = some (spelling ++ located.after.rest) ∧
      located.after.offset = located.start + utf8Length spelling ∧
      ∀ c, located.item = .stray c → spelling = [c] := by
  rw [Cursor.next?_eq, Option.map_eq_some_iff] at h
  obtain ⟨⟨item, spelling, after⟩, hs, rfl⟩ := h
  refine ⟨spelling, sliceFrom?_eq_some_iff.mpr ⟨text.takeWhile isBlank, ?_, ?_⟩, rfl, ?_⟩
  · rw [Item.text_append_of_scan? hs]
    exact List.takeWhile_append_dropWhile
  · exact (Nat.zero_add _).symm
  · rintro c rfl
    exact Item.spelling_of_stray hs

theorem next?_of_slice (cursor : Nat) (slice : List Char) : (Cursor.mk cursor slice).next? =
    (Cursor.atStart slice).next?.map fun located =>
      ⟨located.item, cursor + located.start, ⟨cursor + located.after.offset, located.after.rest⟩⟩ := by
  have h := Cursor.next?_shift cursor (.atStart slice)
  simp only [Nat.add_comm _ cursor] at h
  exact h

/-- A stray character that was found in a line stands in it. -/
theorem of_lookItem_stray {text : List Char} {cursor stop : Nat} {c : Char}
    (h : lookItem text cursor = .ok (some (some (.stray c), stop))) :
    ∃ start rest, sliceFrom? text start = some (c :: rest) ∧ start + c.utf8Size = stop := by
  unfold lookItem at h
  cases hs : sliceFrom text cursor with
  | error fault =>
    rw [hs] at h
    cases h
  | ok slice =>
    rw [hs] at h
    cases hn : (Cursor.atStart slice).next? with
    | none => simp [bind, Except.bind, pure, Except.pure, hn] at h
    | some located =>
      obtain ⟨item, start, after⟩ := located
      cases item with
      | lexeme lexeme => simp [bind, Except.bind, pure, Except.pure, hn] at h
      | stray found =>
        cases hc : charAt text (cursor + start) with
        | error fault => simp [bind, Except.bind, hn, hc] at h
        | ok bad =>
          obtain ⟨rfl, rfl⟩ : bad = c ∧ cursor + start + bad.utf8Size = stop := by
            simpa [bind, Except.bind, pure, Except.pure, hn, hc] using h
          obtain ⟨rest, hrest⟩ := charAt_eq_ok_iff.mp hc
          exact ⟨_, rest, hrest, rfl⟩

theorem finds_item : Finds lookItem fun c => c.next?.map fun located => (some located.item, located.after) := by
  intro text cursor rest hs
  dsimp only
  rw [next?_of_slice, lookItem, sliceFrom_eq_ok_iff.mpr hs]
  cases hn : (Cursor.atStart rest).next? with
  | none => exact ⟨by simp [bind, Except.bind, pure, Except.pure, hn], by simp⟩
  | some located =>
    obtain ⟨item, start, after⟩ := located
    obtain ⟨spelling, hspelling, hoffset, hstray⟩ := slice_of_next? hn
    have hstart : sliceFrom? text (cursor + start) = some (spelling ++ after.rest) :=
      sliceFrom?_trans hs hspelling
    have hafter : sliceFrom? text (cursor + after.offset) = some after.rest := by
      rw [show after.offset = start + utf8Length spelling from hoffset, ← Nat.add_assoc]
      refine sliceFrom?_trans hstart ?_
      rw [← Nat.add_zero (utf8Length spelling), sliceFrom?_append, sliceFrom?_zero]
    refine ⟨?_, by simpa using hafter⟩
    cases item with
    | lexeme lexeme => simp [bind, Except.bind, pure, Except.pure, hn]
    | stray c =>
      obtain rfl := hstray c rfl
      have hc : charAt text (cursor + start) = .ok c := charAt_eq_ok_iff.mpr ⟨_, hstart⟩
      have hbehind : after.offset = start + c.utf8Size := hoffset
      simp [bind, Except.bind, pure, Except.pure, hn, hc, hbehind, Nat.add_assoc]

theorem finds_past (target : Char) : Finds (lookPast target) fun c => (c.skipPast? target).map fun after => (true, after) := by
  intro text cursor rest hs
  dsimp only
  rw [lookPast, sliceFrom_eq_ok_iff.mpr hs]
  rcases find?_cases target rest with ⟨hf, hn⟩ | ⟨before, rest, rfl, hn, hf⟩
  · have hskip : (Cursor.mk cursor rest).skipPast? target = none := by
      have := Cursor.skipPast?_append hn cursor []
      rwa [List.append_nil] at this
    exact ⟨by simp [bind, Except.bind, pure, Except.pure, hf, hskip], by simp [hskip]⟩
  · have hskip : (Cursor.mk cursor (before ++ target :: rest)).skipPast? target =
        some ⟨cursor + utf8Length before + target.utf8Size, rest⟩ := by
      rw [Cursor.skipPast?_append hn]
      simp [Cursor.skipPast?, utf8Length]
    refine ⟨by simp [bind, Except.bind, pure, Except.pure, hf, hskip], ?_⟩
    rintro found after hfound
    rw [hskip] at hfound
    cases hfound
    rw [Nat.add_assoc]
    refine sliceFrom?_trans hs (sliceFrom?_eq_some_iff.mpr ⟨before ++ [target], by simp, ?_⟩)
    rw [utf8Length_append]
    rfl

section
variable {lines : List (List UInt8)} {text rest : List Char} {cursor line : Nat} {unread : List (List UInt8)}

theorem valid_ofLines (h : unread <+: lines) : Valid lines (ofLines unread) where
  bound := Nat.le_refl _
  boundary := ⟨[], [], rfl, rfl⟩
  line := .inl rfl
  unread := h

theorem valid_moved {stop : Nat} (h : Valid lines ⟨text, cursor, line, unread⟩) (hs : sliceFrom? text stop = some rest) :
    Valid lines ⟨text, stop, line, unread⟩ := by
  obtain ⟨before, rfl, rfl⟩ := sliceFrom?_eq_some_iff.mp hs
  refine ⟨?_, ⟨before, rest, rfl, rfl⟩, h.line, h.unread⟩
  rw [utf8Length_append]
  exact Nat.le_add_right _ _

theorem valid_nextLine {bytes : List UInt8} (h : Valid lines ⟨text, cursor, line, bytes :: unread⟩) :
    Valid lines ⟨decode bytes, 0, line + 1, unread⟩ := by
  obtain ⟨later, hlater⟩ := h.unread
  have hfirst : lines[line]? = some bytes := by
    rw [← List.head?_drop, ← hlater]
    rfl
  refine ⟨Nat.zero_le _, ⟨[], _, rfl, rfl⟩, .inr ⟨bytes, Nat.succ_pos _, hfirst, rfl⟩, later, ?_⟩
  rw [← List.tail_drop, ← hlater]
  rfl

theorem valid_end (h : Valid lines ⟨text, cursor, line, []⟩) : Valid lines ⟨[], 0, line, []⟩ :=
  ⟨Nat.le_refl _, ⟨[], [], rfl, rfl⟩, .inl rfl, h.unread⟩

end

/-! ## One line after the other -/

section
variable {α : Type} {look : List Char → Nat → Except Fault (Option (α × Nat))} {find : Cursor → Option (α × Cursor)}
  {missing : α} {lines : List (List UInt8)}

theorem agrees_seek (hfind : Finds look find) (read : Cursor → Nat → List (List Char) → α × LineReader)
    (hread : ∀ c line upcoming, read c line upcoming =
      match find c, upcoming with
      | some (found, after), _ => (found, ⟨after, line, upcoming⟩)
      | none, [] => (missing, ⟨.atStart [], line, []⟩)
      | none, text :: upcoming => read (.atStart text) (line + 1) upcoming)
    {text rest : List Char} {cursor line : Nat} {unread : List (List UInt8)}
    (hs : sliceFrom? text cursor = some rest) (hv : Valid lines ⟨text, cursor, line, unread⟩) :
    Agrees lines (seek look missing text cursor line unread) (read ⟨cursor, rest⟩ line (unread.map decode)) := by
  induction unread generalizing text rest cursor line with
  | nil =>
    obtain ⟨hlook, hafter⟩ := hfind text cursor rest hs
    rw [seek.eq_def, hlook, hread]
    cases hf : find ⟨cursor, rest⟩ with
    | none => exact ⟨_, rfl, ⟨rfl, rfl, rfl, rfl⟩, valid_end hv⟩
    | some p => exact ⟨_, rfl, ⟨hafter p.1 p.2 hf, rfl, rfl, rfl⟩, valid_moved hv (hafter p.1 p.2 hf)⟩
  | cons bytes unread ih =>
    obtain ⟨hlook, hafter⟩ := hfind text cursor rest hs
    rw [seek.eq_def, hlook, hread]
    cases hf : find ⟨cursor, rest⟩ with
    | none => exact ih (sliceFrom?_zero _) (valid_nextLine hv)
    | some p => exact ⟨_, rfl, ⟨hafter p.1 p.2 hf, rfl, rfl, rfl⟩, valid_moved hv (hafter p.1 p.2 hf)⟩

/-- What a search comes to was found in the line that is left in the buffer, or is missing. -/
theorem of_seek {text : List Char} {cursor line : Nat} {unread : List (List UInt8)} {found : α} {b : LineBuffer}
    (h : seek look missing text cursor line unread = .ok (found, b)) :
    found = missing ∨ ∃ start, look b.text start = .ok (some (found, b.cursor)) := by
  fun_induction seek look missing text cursor line unread with
  | case1 => cases h
  | case2 text cursor line unread found' cursor' hl =>
    cases h
    exact .inr ⟨cursor, hl⟩
  | case3 =>
    cases h
    exact .inl rfl
  | case4 text cursor line bytes unread hl ih => exact ih h

end

variable {lines : List (List UInt8)} {b b' : LineBuffer} {r : LineReader}

theorem agrees_takeItem (hs : b.Shows r) (hv : b.Valid lines) : Agrees lines b.takeItem r.takeItem := by
  obtain ⟨text, cursor, line, unread⟩ := b
  obtain ⟨⟨offset, rest⟩, line', upcoming⟩ := r
  obtain ⟨hslice, rfl, rfl, rfl⟩ := hs
  refine agrees_seek finds_item LineReader.itemFrom (fun c line upcoming => ?_) hslice hv
  rw [LineReader.itemFrom.eq_def]
  cases c.next? <;> cases upcoming <;> rfl

theorem agrees_skipPast (target : Char) (hs : b.Shows r) (hv : b.Valid lines) :
    Agrees lines (b.skipPast target) (r.skipPast target) := by
  obtain ⟨text, cursor, line, unread⟩ := b
  obtain ⟨⟨offset, rest⟩, line', upcoming⟩ := r
  obtain ⟨hslice, rfl, rfl, rfl⟩ := hs
  refine agrees_seek (finds_past target) (LineReader.skipFrom target) (fun c line upcoming => ?_) hslice hv
  rw [LineReader.skipFrom.eq_def]
  cases c.skipPast? target <;> cases upcoming <;> rfl

theorem isBehind_of_takeItem {c : Char} (h : b.takeItem = .ok (some (.stray c), b')) : b'.IsBehind c := by
  rcases of_seek h with hc | ⟨cursor, hlook⟩
  · cases hc
  · obtain ⟨start, rest, hslice, hto⟩ := of_lookItem_stray hlook
    obtain ⟨before, htext, hlength⟩ := sliceFrom?_eq_some_iff.mp hslice
    refine ⟨before, rest, htext, ?_⟩
    rw [utf8Length_append, hlength, ← hto]
    rfl

theorem text_eq_of_nil (hs : b.Shows r) (hv : b.Valid lines) (hs' : b'.Shows r) (h : b.text = []) :
    b.text = b'.text := by
  have hzero : b.cursor = 0 := by
    have := hv.bound
    rw [h] at this
    exact Nat.le_zero.mp this
  have hslice : sliceFrom? b.text 0 = sliceFrom? b'.text 0 := by
    rw [← hzero, hs.slice, hs.cursor, ← hs'.cursor, hs'.slice]
  rwa [sliceFrom?_zero, sliceFrom?_zero, Option.some.injEq] at hslice

/-- The buffer that a reader shows is the only one. -/
theorem eq_of_shows (hs : b.Shows r) (hv : b.Valid lines) (hs' : b'.Shows r) (hv' : b'.Valid lines) : b = b' := by
  have hline : b.line = b'.line := hs.line.trans hs'.line.symm
  have hcursor : b.cursor = b'.cursor := hs.cursor.trans hs'.cursor.symm
  have htext : b.text = b'.text := by
    rcases hv.line with h | ⟨bytes, -, hbytes, htext⟩
    · exact text_eq_of_nil hs hv hs' h
    rcases hv'.line with h' | ⟨bytes', -, hbytes', htext'⟩
    · exact (text_eq_of_nil hs' hv' hs h').symm
    rw [← hline, hbytes] at hbytes'
    cases hbytes'
    exact htext.trans htext'.symm
  have hunread : b.unread = b'.unread := by
    have hlength : b.unread.length = b'.unread.length := by
      rw [← List.length_map decode, hs.upcoming, ← hs'.upcoming, List.length_map]
    have hu := hv.unread
    rw [hline] at hu
    exact (List.prefix_of_prefix_length_le hu hv'.unread hlength.le).eq_of_length hlength
  obtain ⟨text, cursor, line, unread⟩ := b
  obtain ⟨text', cursor', line', unread'⟩ := b'
  cases htext
  cases hcursor
  cases hline
  cases hunread
  rfl

end LineBuffer

end DeskCalculator
