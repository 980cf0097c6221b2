import DeskCalculator.CommandLine
import DeskCalculator.Session

/-!
# The program

A run of the program as a function: what it writes and how it exits, given its arguments, its
standard input and the files there are.
-/

namespace DeskCalculator.Program

/-- Bytes to be read, and why reading fails at their end, if it does. -/
structure Document where
  bytes : List UInt8
  failure : Option String

def Document.source (document : Document) : Source :=
  .ofBytes document.bytes document.failure

/-- What the program has written when it exits, and its exit code. -/
structure Report where
  stdout : String
  stderr : String
  code : UInt32

def versionText : String := "reckon 0.1.0\n"

def usageText : String := "Usage: reckon [OPTIONS] [SOURCE]\n"

def helpText : String :=
  "reckon is a desk calculator: type statements ending in '=' and get one result per statement" ++
  s!"\n\n{usageText}\n" ++
  "Arguments:\n" ++
  "  [SOURCE]  Statements to evaluate instead of reading standard input\n\n" ++
  "Options:\n" ++
  "  -f, --file <FILE>            Reads statements from this file instead of standard input\n" ++
  "  -p, --precision <PRECISION>  Number of significant digits printed for each result " ++
  s!"[default: {defaultPrecision}]\n" ++
  "  -q, --quiet                  Does not print the help banner\n" ++
  "  -h, --help                   Print help\n" ++
  "  -V, --version                Print version\n"

/-- What a session starts with, unless it is quiet. -/
def banner : String :=
  "\nYou are allowed to use +, -, *, /, %, sqrt() and pow().\n\n" ++
  "Once you are done entering an expression, enter a '=' to execute it. " ++
  "Quit with 'exit' or 'x'.\n" ++
  "Declare variables with 'let <name> = <expression>'; 'pi' and 'e' are predefined.\n" ++
  "pow() is used in the following syntax: " ++
  "pow(<number to be raised>,<number to raise it to>)\n\n"

def greeting (invocation : CommandLine.Invocation) : String :=
  if invocation.quiet then "" else banner

def unreadableText (path : String) : String :=
  s!"Failed to read the input file '{path}'. Perhaps this file does not exist?\n"

/-- What is said about a usage error on a terminal. -/
def complaint (error : CommandLine.UsageError) : String :=
  Text.Style.alarm.apply "error:" ++ s!" {error.message}\n\n" ++
  (if error.showsUsage then s!"{usageText}\n" else "") ++
  s!"For more information, try {CommandLine.literal CommandLine.Parameter.help.label}.\n"

/-- The report of a run that starts no session. What reads it is taken not to be a terminal. -/
def interrupted : CommandLine.Interruption → Report
  | .usage error => ⟨"", Text.plain (complaint error), 2⟩
  | .version => ⟨versionText, "", 0⟩
  | .help => ⟨helpText, "", 0⟩

def session (invocation : CommandLine.Invocation) (source : Source) : Report :=
  let t := source.transcript invocation.precision ⟨none, none⟩
  let stdout := greeting invocation ++ t.output
  match t.failure with
  | none => ⟨stdout, t.diagnostics, 0⟩
  | some e => ⟨stdout, s!"{t.diagnostics}{e.message}\n", 1⟩

/-- The report of a run. A file is opened before anything is written. -/
def report (open? : String → Option Document) (stdin : Document) (arguments : List String) :
    Report :=
  match CommandLine.parse arguments with
  | .error interruption => interrupted interruption
  | .ok invocation =>
    match invocation.input with
    | .standardInput => session invocation stdin.source
    | .text text => session invocation (.ofBytes text.toUTF8.toList none)
    | .file path =>
      match open? path with
      | some document => session invocation document.source
      | none => ⟨"", unreadableText path, 1⟩

end DeskCalculator.Program
