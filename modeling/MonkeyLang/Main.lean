import MonkeyLang.CommandLine
/-!
# The program

Reads arguments, files and lines, and hands them to the library; all that
is decided is decided there.
-/

namespace MonkeyLang

namespace Terminal

/-- The bytes of a file, or why they cannot be had. -/
def contentOf (name : String) : IO (Except CommandLine.FileProblem (List UInt8)) := do
  try return .ok (← IO.FS.readBinFile name).toList
  catch
    | .inappropriateType .. => return .error .directory
    | _ => return .error .missing

/-- Reads the bytes of a line, with the line break that ends it. -/
partial def readLine (input : IO.FS.Stream) (line : List UInt8) : IO (List UInt8) := do
  match (← input.read 1).toList with
  | [] => return line.reverse
  | byte :: _ => if byte = 10 then return (byte :: line).reverse else readLine input (byte :: line)

/-- Converses until the conversation ends. -/
partial def converse (input output : IO.FS.Stream) (session : Session) : IO Repl.Ending := do
  output.putStr Repl.prompt
  output.flush
  match ← readLine input [] with
  | [] =>
    output.putStr Repl.lastLine
    return .endOfInput
  | line =>
    match Repl.answer callLimit session (Repl.decode line) with
    | .reply text session =>
      output.putStr text
      converse input output session
    | .final text ending =>
      output.putStr text
      return ending

/-- Writes what an outcome has to say. -/
def report (outcome : CommandLine.Outcome) : IO UInt32 := do
  (← IO.getStdout).putStr outcome.stdout
  (← IO.getStderr).putStr outcome.stderr
  return outcome.code.toUInt32

/-- Does what the arguments ask for; the answer is the exit code. -/
def run (arguments : List String) : IO UInt32 := do
  match CommandLine.parse arguments with
  | some .converse =>
    let input ← IO.getStdin
    let output ← IO.getStdout
    if ← input.isTty then output.putStr Repl.greeting
    report (CommandLine.closing (← converse input output .new))
  | some (.runFile name _) =>
    let content ← contentOf name
    report (CommandLine.run callLimit (fun _ => content) [] arguments)
  | _ => report (CommandLine.run callLimit (fun _ => .error .missing) [] arguments)

end Terminal

end MonkeyLang

def main (arguments : List String) : IO UInt32 := MonkeyLang.Terminal.run arguments
