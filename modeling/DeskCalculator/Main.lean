import DeskCalculator.Program

/-!
# The command

`main` reads the files and the standard input that `Program.report` is about. A session on standard
input goes line by line: a step that finds no more text is taken again once another line has come.
-/

namespace DeskCalculator.Command

/-- Why reading has failed, in the words of the system. -/
def reason : IO.Error → String
  | .inappropriateType _ code details
  | .permissionDenied _ code details
  | .resourceExhausted _ code details
  | .hardwareFault code details => s!"{details} (os error {code})"
  | e => toString e

/-- Reads up to and including a newline, or to the end. -/
partial def readLine (stream : IO.FS.Stream) (before : List UInt8) : IO (List UInt8) := do
  let bytes ← stream.read 1
  match bytes.toList with
  | [] => return before.reverse
  | byte :: _ =>
    if byte = 10 then return (byte :: before).reverse
    readLine stream (byte :: before)

/-- Reads a file that can be opened, as far as it can be read. -/
def readDocument? (path : String) : IO (Option Program.Document) := do
  let opened ← (IO.FS.Handle.mk path .read).toBaseIO
  match opened with
  | .error _ => return none
  | .ok handle =>
    match ← handle.readBinToEnd.toBaseIO with
    | .ok bytes => return some ⟨bytes.toList, none⟩
    | .error e => return some ⟨[], some (reason e)⟩

/-- Goes on with a session on standard input. While it is `open`, more text may come. -/
partial def converse (precision : Nat) (isOpen : Bool) (session : Session) : IO UInt32 := do
  match session.step with
  | .event event next =>
    let stream ← match event with
      | .result _ => IO.getStdout
      | .mistake .. => IO.getStderr
    stream.putStr (event.text precision)
    stream.flush
    converse precision isOpen next
  | .finished => return 0
  | .failed e =>
    if isOpen then
      match ← (readLine (← IO.getStdin) []).toBaseIO with
      | .ok [] => converse precision false (session.endingWith none)
      | .ok line => converse precision true (session.append (Text.decode line))
      | .error e => converse precision false (session.endingWith (some (reason e)))
    else
      IO.eprintln e.message
      return 1

def emit (report : Program.Report) : IO UInt32 := do
  IO.print report.stdout
  IO.eprint report.stderr
  return report.code

end DeskCalculator.Command

open DeskCalculator in
def main (arguments : List String) : IO UInt32 := do
  match CommandLine.parse arguments with
  | .ok ⟨.standardInput, precision, quiet⟩ =>
    IO.print (Program.greeting ⟨.standardInput, precision, quiet⟩)
    (← IO.getStdout).flush
    Command.converse precision true (.ofSource ⟨[], some "more may come"⟩)
  | .ok ⟨.file path, _, _⟩ =>
    let document ← Command.readDocument? path
    Command.emit (Program.report (fun _ => document) ⟨[], none⟩ arguments)
  | _ => Command.emit (Program.report (fun _ => none) ⟨[], none⟩ arguments)
