import DeskCalculator.Decimal.General
import DeskCalculator.Text.Terminal

/-!
# The command line

Arguments are read from left to right. A parameter whose value stands in an argument of its own, and
the text to evaluate, stay pending until the next parameter or the end settles them, so a malformed
option further on is reported first. Whatever starts with a dash, a lone dash apart, is an option
and never a value; `--` ends the options.
-/

namespace DeskCalculator.CommandLine

inductive Parameter where
  | file
  | precision
  | quiet
  | version
  | help
  | source
  deriving DecidableEq

namespace Parameter

def options : List Parameter := [.file, .precision, .quiet, .version, .help]

def name : Parameter → String
  | .file => "file"
  | .precision => "precision"
  | .quiet => "quiet"
  | .version => "version"
  | .help => "help"
  | .source => "SOURCE"

def letter? : Parameter → Option Char
  | .file => some 'f'
  | .precision => some 'p'
  | .quiet => some 'q'
  | .version => some 'V'
  | .help => some 'h'
  | .source => none

def takesValue : Parameter → Bool
  | .file | .precision | .source => true
  | .quiet | .version | .help => false

def label : Parameter → String
  | .file => "--file <FILE>"
  | .precision => "--precision <PRECISION>"
  | .source => "[SOURCE]"
  | parameter => s!"--{parameter.name}"

def ofName? (name : String) : Option Parameter := options.find? (·.name = name)

def ofLetter? (letter : Char) : Option Parameter := options.find? (·.letter? = some letter)

end Parameter

inductive UsageError where
  | unexpectedArgument (text : String)
  | missingValue (parameter : Parameter)
  | repeated (parameter : Parameter)
  | precisionNotANumber (value : String)
  | precisionOutOfRange (value : String)
  | surplusValue (value : String) (parameter : Parameter)
  | conflict (first second : Parameter)
  deriving DecidableEq

/-- A quotation in a message, marked as what is wrong. -/
def wrong (text : String) : String := s!"'{Text.Style.invalid.apply text}'"

/-- A quotation in a message of what is as it should be. -/
def literal (text : String) : String := s!"'{Text.Style.literal.apply text}'"

/-- The message for a terminal. The reason why a precision is not valid has no styles. -/
def UsageError.message : UsageError → String
  | .unexpectedArgument text => s!"unexpected argument {wrong text} found"
  | .missingValue parameter =>
    s!"a value is required for {wrong parameter.label} but none was supplied"
  | .repeated parameter => s!"the argument {wrong parameter.label} cannot be used multiple times"
  | .precisionNotANumber value =>
    s!"invalid value {wrong value} for {literal Parameter.precision.label}: " ++
      s!"'{value}' is not a number"
  | .precisionOutOfRange value =>
    s!"invalid value {wrong value} for {literal Parameter.precision.label}: " ++
      s!"precision must be between 1 and {maxPrecision}"
  | .surplusValue value parameter =>
    s!"unexpected value {wrong value} for {literal parameter.label} found; no more were expected"
  | .conflict first second =>
    s!"the argument {wrong first.label} cannot be used with {wrong second.label}"

/-- Is the message followed by a summary of the usage? A value that is missing or not valid has
nothing to do with it. -/
def UsageError.showsUsage : UsageError → Bool
  | .missingValue _ | .precisionNotANumber _ | .precisionOutOfRange _ => false
  | _ => true

inductive Input where
  | file (path : String)
  | text (text : String)
  | standardInput
  deriving DecidableEq

structure Invocation where
  input : Input
  precision : Nat
  quiet : Bool
  deriving DecidableEq

inductive Interruption where
  | usage (error : UsageError)
  | version
  | help
  deriving DecidableEq

inductive Setting where
  | file (path : String)
  | precision (digits : Nat)
  | quiet
  | source (text : String)
  deriving DecidableEq

def Setting.parameter : Setting → Parameter
  | .file _ => .file
  | .precision _ => .precision
  | .quiet => .quiet
  | .source _ => .source

/-- Digits, with an optional plus sign, of a number of 64 bits. -/
def natural? (text : String) : Option Nat :=
  let digits := match text.toList with
    | '+' :: digits => digits
    | digits => digits
  if digits ≠ [] ∧ digits.all Char.isDigit then
    let value := Nat.ofDigitChars 10 digits 0
    if value < 0x10000000000000000 then some value else none
  else none

def Setting.ofValue (parameter : Parameter) (value : String) : Except Interruption Setting :=
  match parameter with
  | .file => if value = "" then .error (.usage (.missingValue .file)) else .ok (.file value)
  | .precision =>
    match natural? value with
    | none => .error (.usage (.precisionNotANumber value))
    | some digits =>
      if 1 ≤ digits ∧ digits ≤ maxPrecision then .ok (.precision digits)
      else .error (.usage (.precisionOutOfRange value))
  | .source => .ok (.source value)
  | .quiet => .ok .quiet
  | .version => .error .version
  | .help => .error .help

/-- A command line of which some arguments have been read. The settings stand in the order in which
they were settled. -/
structure Reader where
  settings : List Setting
  pending : Option (Parameter × Option String)
  optionsEnded : Bool

namespace Reader

def start : Reader := ⟨[], none, false⟩

/-- Settles a parameter. A missing value is noticed before a repetition, and that before a value
that is not valid. -/
def settle (r : Reader) (parameter : Parameter) (value : Option String) :
    Except Interruption Reader := do
  if parameter.takesValue ∧ value = none then
    throw (.usage (.missingValue parameter))
  if r.settings.any (·.parameter = parameter) then
    throw (.usage (.repeated parameter))
  let setting ← Setting.ofValue parameter (value.getD "")
  return { r with settings := r.settings ++ [setting], pending := none }

def resolve (r : Reader) : Except Interruption Reader :=
  match r.pending with
  | some (parameter, value) => r.settle parameter value
  | none => .ok r

/-- An option with the value that is attached to it, if any. Without one, an option that takes a
value waits for the next argument. -/
def option (r : Reader) (parameter : Parameter) (value : Option String) :
    Except Interruption Reader := do
  let r ← r.resolve
  if parameter.takesValue ∧ value = none then
    return { r with pending := some (parameter, none) }
  r.settle parameter value

def positional (r : Reader) (text : String) : Except Interruption Reader := do
  let waiting := r.pending.map Prod.fst
  if waiting = some .source ∨ r.settings.any (·.parameter = .source) then
    throw (.usage (.unexpectedArgument text))
  let r ← r.resolve
  return { r with pending := some (.source, some text) }

/-- An option by its long name, which may have a value attached with `=`. -/
def long (r : Reader) (text : List Char) : Except Interruption Reader :=
  let name := String.ofList (text.takeWhile (· ≠ '='))
  let value := match text.dropWhile (· ≠ '=') with
    | [] => none
    | _ :: value => some (String.ofList value)
  match Parameter.ofName? name, value with
  | none, _ => .error (.usage (.unexpectedArgument s!"--{name}"))
  | some parameter, value =>
    match parameter.takesValue, value with
    | false, some value => .error (.usage (.surplusValue value parameter))
    | _, value => r.option parameter value

/-- Options by their letters. The first that takes a value takes the rest as its value, after an
optional `=`. -/
def short (r : Reader) : List Char → Except Interruption Reader
  | [] => .ok r
  | letter :: rest =>
    match Parameter.ofLetter? letter with
    | none => .error (.usage (.unexpectedArgument s!"-{letter}"))
    | some parameter =>
      if parameter.takesValue then
        match rest with
        | [] => r.option parameter none
        | '=' :: value | value => r.option parameter (some (String.ofList value))
      else do
        let r ← r.option parameter none
        r.short rest

def argument (r : Reader) (text : String) : Except Interruption Reader :=
  if r.optionsEnded then r.positional text
  else
    match text.toList, r.pending with
    | ['-', '-'], _ => .ok { r with optionsEnded := true }
    | '-' :: '-' :: option, _ => r.long option
    | '-' :: letter :: letters, _ => r.short (letter :: letters)
    | _, some (parameter, none) => .ok { r with pending := some (parameter, some text) }
    | _, _ => r.positional text

/-- What the settings come to. A file and a text to evaluate exclude each other. -/
def finish (r : Reader) : Except Interruption Invocation := do
  let r ← r.resolve
  let sources := r.settings.filter fun setting =>
    setting.parameter = .file ∨ setting.parameter = .source
  let input ← match sources with
    | first :: second :: _ => throw (.usage (.conflict first.parameter second.parameter))
    | [.file path] => pure (.file path)
    | [.source text] => pure (.text text)
    | _ => pure .standardInput
  let precision := r.settings.findSome? fun
    | .precision digits => some digits
    | _ => none
  return ⟨input, precision.getD defaultPrecision, r.settings.contains .quiet⟩

end Reader

def parse (arguments : List String) : Except Interruption Invocation := do
  let r ← arguments.foldlM Reader.argument .start
  r.finish

end DeskCalculator.CommandLine
