/-!
# Text for a terminal

Messages mark what they quote with styles, which a terminal takes from control sequences. `plain` is
what of such a text reaches a reader that is no terminal: it has no style and no control character
but blanks, whether a style or a quotation brought them in.
-/

namespace DeskCalculator.Text

inductive Style where
  | alarm
  | invalid
  | literal

def Style.sequence : Style → String
  | .alarm => "\x1b[1m\x1b[31m"
  | .invalid => "\x1b[33m"
  | .literal => "\x1b[1m"

def Style.apply (style : Style) (text : String) : String :=
  style.sequence ++ text ++ "\x1b[0m"

/-! ## Control sequences -/

/-- A place in a text with control sequences. `deviceEntry` and the two after it stand in the
head of a device string; its body is a `string` like any other, while a `command` ends by rules
of its own. -/
inductive Place where
  | outside
  | escape
  | intermediate
  | control
  | deviceEntry
  | deviceParameters
  | deviceIntermediate
  | string
  | command
  deriving DecidableEq

/-- The byte that ends a string on its own. It counts within an encoded character as well. -/
def stringTerminator : UInt8 := 0x9c

/-- The place after a character that is not passed on. Everywhere, an escape begins a new sequence
and a cancellation ends the current one. -/
def Place.after (place : Place) (c : Char) : Place :=
  if c = '\x1b' then .escape
  else if c = '\x18' ∨ c = '\x1a' then .outside
  else
    match place with
    | .outside => .outside
    | .escape =>
      if c = '[' then .control
      else if c = ']' then .command
      else if c = 'P' then .deviceEntry
      else if c = 'X' ∨ c = '^' ∨ c = '_' then .string
      else if ' ' ≤ c ∧ c ≤ '/' then .intermediate
      else if '0' ≤ c ∧ c ≤ '~' then .outside
      else .escape
    | .intermediate => if '0' ≤ c ∧ c ≤ '~' then .outside else .intermediate
    | .control => if '@' ≤ c ∧ c ≤ '~' then .outside else .control
    | .deviceEntry =>
      if ' ' ≤ c ∧ c ≤ '/' then .deviceIntermediate
      else if '0' ≤ c ∧ c ≤ '?' then .deviceParameters
      else if '@' ≤ c ∧ c ≤ '~' then .string
      else .deviceEntry
    | .deviceParameters =>
      if ' ' ≤ c ∧ c ≤ '/' then .deviceIntermediate
      else if '<' ≤ c ∧ c ≤ '~' then .string
      else .deviceParameters
    | .deviceIntermediate => if '0' ≤ c ∧ c ≤ '~' then .string else .deviceIntermediate
    | .string => if (String.utf8EncodeChar c).contains stringTerminator then .outside else .string
    | .command => if c = '\x07' then .outside else .command

/-- Blanks other than the space. -/
def isFormatBlank (c : Char) : Bool := c = '\t' || c = '\n' || c = '\x0c' || c = '\r'

/-- Is a character passed on outside of sequences? -/
def isPassedOn (c : Char) : Bool := isFormatBlank c || ' ' ≤ c && c ≠ '\x7f'

/-- A blank is passed on inside these sequences too. -/
def Place.passesBlanks : Place → Bool
  | .escape | .intermediate | .control => true
  | _ => false

/-- What is passed on of a text from a place. A blank inside a sequence suspends it: text is passed
on again up to the next control character, after which the sequence goes on, unless it is forgotten
because of a character that is not ASCII. -/
def plainFrom : Place → Bool → List Char → List Char
  | _, _, [] => []
  | place, suspended, c :: text =>
    if (place = .outside ∨ suspended) ∧ isPassedOn c then
      if c ≤ '\x7f' then c :: plainFrom place suspended text
      else c :: plainFrom .outside false text
    else if place.passesBlanks ∧ isFormatBlank c then c :: plainFrom place true text
    else plainFrom (place.after c) false text

/-- A text without control sequences and without control characters that are not blank. -/
def plain (text : String) : String := String.ofList (plainFrom .outside false text.toList)

end DeskCalculator.Text
