import MonkeyLang.Parser.Program
import MonkeyLang.Session
import MonkeyLang.Text.Blank
import MonkeyLang.Value.Inspect
/-!
# Conversations

A conversation reads line after line and answers each one, in one session.
A line with syntax errors is answered with these and has no other effect;
any other line is run, and answered with its result unless all it did was
to bind. The conversation ends with its input, with a line that says `exit`
or `quit`, or at a line that is no text.
-/

namespace MonkeyLang

namespace Repl

/-- What invites the user to enter a line. -/
def prompt : String := ">> "

/-- What greets a user who sits at a terminal. -/
def greeting : String :=
  "This is the Monkey programming language!\nFeel free to type in commands\n"

/-- What ends the output when the input has ended. -/
def lastLine : String := "\n"

/-- A line of input with the line break that ends it, if it has one;
nothing stands for a line that is no text. -/
abbrev Line : Type := Option String

/-- How a conversation ended. -/
inductive Ending where
  | endOfInput
  | farewell
  | notText
  | exhausted
  deriving DecidableEq, Repr

/-- The answer to a line. -/
inductive Answer where
  /-- The text of the answer, and the session after the line. -/
  | reply (text : String) (session : Session)
  /-- The last text of the conversation, and why it ends. -/
  | final (text : String) (ending : Ending)

/-- The texts of syntax errors, each on a line of its own behind a tab. -/
def diagnostics (messages : List String) : String :=
  String.join (messages.map fun message => "\t" ++ message ++ "\n")

/-- Is a result worth showing? That of a program that ends in a `let` is
not, unless it is an error. -/
def isShown (program : Program) (result : Value) : Bool :=
  result.isError || !(program.statements.getLast?.any Stmt.isBind)

/-- Answers a line of text. -/
def answerText (depth : Nat) (session : Session) (line : String) : Answer :=
  let words := trim line.toList
  if words = "exit".toList ∨ words = "quit".toList then .final "Exiting...\n" .farewell
  else if words = [] then .reply "" session
  else
    let reading := readText line
    if reading.errors ≠ [] then .reply (diagnostics reading.messages) session
    else
      match session.run depth reading.program with
      | none => .final "" .exhausted
      | some (result, session) =>
        .reply (if isShown reading.program result then result.inspect ++ "\n" else "") session

/-- Answers a line. -/
def answer (depth : Nat) (session : Session) : Line → Answer
  | some line => answerText depth session line
  | none => .final "" .notText

/-! ## Whole conversations -/

/-- Cuts bytes behind each line break. -/
def splitLines : List UInt8 → List (List UInt8)
  | [] => []
  | byte :: rest =>
    if byte = 10 then [byte] :: splitLines rest
    else
      match splitLines rest with
      | [] => [[byte]]
      | line :: lines => (byte :: line) :: lines

/-- The text that bytes encode, if they are UTF-8. -/
def decode (bytes : List UInt8) : Option String := String.fromUTF8? ⟨bytes.toArray⟩

/-- The lines of an input. -/
def linesOf (input : List UInt8) : List Line := (splitLines input).map decode

/-- All that a conversation wrote, and how it ended. -/
structure Transcript where
  output : String
  ending : Ending

/-- The conversation about some lines. -/
def converse (depth : Nat) (session : Session) : List Line → Transcript
  | [] => ⟨prompt ++ lastLine, .endOfInput⟩
  | line :: rest =>
    match answer depth session line with
    | .final text ending => ⟨prompt ++ text, ending⟩
    | .reply text session =>
      let t := converse depth session rest
      ⟨prompt ++ text ++ t.output, t.ending⟩

/-- The conversation about an input, in a new session. -/
def start (depth : Nat) (input : List UInt8) : Transcript :=
  converse depth .new (linesOf input)

end Repl

end MonkeyLang
