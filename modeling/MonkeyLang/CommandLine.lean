import MonkeyLang.Repl
/-!
# The command line

What the arguments ask for, and what the program then writes and which exit
code it has. A program comes from a file or from the command line itself;
without either the program converses. Arguments are taken from left to
right, and the first that is refused or that asks for the version settles
the matter.
-/

namespace MonkeyLang

namespace CommandLine

/-- What the arguments ask for. -/
inductive Request where
  | version
  /-- Run a program given as an argument, or show its tree. -/
  | evaluate (code : String) (showTree : Bool)
  /-- Run the program in a file, or show its tree. -/
  | runFile (name : String) (showTree : Bool)
  | converse
  deriving DecidableEq, Repr

/-! ## Arguments -/

/-- What the arguments taken so far have set. -/
structure Settings where
  file? : Option String
  code? : Option String
  showTree : Bool

namespace Settings

/-- Nothing is set. -/
def initial : Settings := ⟨none, none, false⟩

/-- Sets the file, which must not be set yet and needs a name. -/
def setFile (s : Settings) (name : String) : Option Settings :=
  if s.file?.isSome ∨ name = "" then none else some { s with file? := some name }

/-- Sets the code, which must not be set yet. -/
def setCode (s : Settings) (code : String) : Option Settings :=
  if s.code?.isSome then none else some { s with code? := some code }

/-- Asks for the tree, which must not be asked for yet. -/
def setShowTree (s : Settings) : Option Settings :=
  if s.showTree then none else some { s with showTree := true }

/-- What the settings ask for. A file and code exclude each other. -/
def request (s : Settings) : Option Request :=
  match s.file?, s.code? with
  | none, none => some .converse
  | none, some code => some (.evaluate code s.showTree)
  | some name, none => some (.runFile name s.showTree)
  | some _, some _ => none

end Settings

/-- What a single argument is. -/
inductive Argument where
  | version
  | showTree
  /-- The code is the next argument. -/
  | codeFollows
  | code (code : String)
  | file (name : String)
  /-- All arguments from here on are files. -/
  | endOfOptions
  | unknown
  deriving DecidableEq, Repr

/-- The value that is attached to a short option, perhaps behind an equals
sign. -/
def attached : List Char → String
  | '=' :: value => String.ofList value
  | value => String.ofList value

/-- Classifies an argument. A lone hyphen is the name of a file. -/
def Argument.ofText (text : String) : Argument :=
  match text.toList with
  | ['-', '-'] => .endOfOptions
  | '-' :: '-' :: name =>
    if name = "ast".toList then .showTree
    else if name = "version".toList then .version
    else if name = "eval".toList then .codeFollows
    else if "eval=".toList.isPrefixOf name then .code (String.ofList (name.drop 5))
    else .unknown
  | '-' :: 'V' :: _ => .version
  | ['-', 'e'] => .codeFollows
  | '-' :: 'e' :: value => .code (attached value)
  | ['-'] => .file text
  | '-' :: _ => .unknown
  | _ => .file text

/-- May the text stand as the value of an option on its own? -/
def isValue (text : String) : Bool :=
  match text.toList with
  | '-' :: _ :: _ => false
  | _ => true

/-- The arguments behind the end of the options. -/
def parseFiles : List String → Settings → Option Request
  | [], settings => settings.request
  | name :: rest, settings => do parseFiles rest (← settings.setFile name)

/-- Takes arguments from left to right; nothing is the answer if they are
refused. -/
def parseFrom : List String → Settings → Option Request
  | [], settings => settings.request
  | text :: rest, settings =>
    match Argument.ofText text, rest with
    | .version, _ => some .version
    | .showTree, rest => do parseFrom rest (← settings.setShowTree)
    | .code code, rest => do parseFrom rest (← settings.setCode code)
    | .codeFollows, code :: rest =>
      if isValue code then do parseFrom rest (← settings.setCode code) else none
    | .codeFollows, [] => none
    | .file name, rest => do parseFrom rest (← settings.setFile name)
    | .endOfOptions, rest => parseFiles rest settings
    | .unknown, _ => none

/-- What some arguments ask for, if they are not refused. -/
def parse (arguments : List String) : Option Request := parseFrom arguments .initial

/-! ## Outcomes -/

/-- What the program wrote, and its exit code. -/
structure Outcome where
  code : UInt8
  stdout : String
  stderr : String

/-- Why a file could not be read as text. -/
inductive FileProblem where
  | missing
  | directory
  | notText
  deriving DecidableEq, Repr

/-- The text of a problem with a file. -/
def FileProblem.message : FileProblem → String
  | .missing => "No such file or directory (os error 2)"
  | .directory => "Is a directory (os error 21)"
  | .notText => "stream did not contain valid UTF-8"

/-- The outcome for arguments that are refused. -/
def refused : Outcome :=
  ⟨2, "", "error: invalid arguments\n\nUsage: monkey [--ast] [FILE | -e CODE]\n"⟩

/-- The outcome of running a program, or of showing its tree. -/
def runSource (depth : Nat) (source : String) (showTree : Bool) : Outcome :=
  let reading := readText source
  if reading.errors ≠ [] then ⟨1, "", Repl.diagnostics reading.messages⟩
  else if showTree then ⟨0, reading.program.render ++ "\n", ""⟩
  else
    match Session.new.run depth reading.program with
    | none => ⟨1, "", "Error: calls nested too deeply\n"⟩
    | some (.error message, _) => ⟨1, "", "ERROR: " ++ message ++ "\n"⟩
    | some (.null, _) => ⟨0, "", ""⟩
    | some (result, _) => ⟨0, result.inspect ++ "\n", ""⟩

/-- The outcome of running the program in a file, given what the file
holds. -/
def runContent (depth : Nat) (name : String) (showTree : Bool) :
    Except FileProblem (List UInt8) → Outcome
  | .error problem => unreadable problem
  | .ok content =>
    match Repl.decode content with
    | none => unreadable .notText
    | some source => runSource depth source showTree
where
  /-- The outcome for a file that cannot be read. -/
  unreadable (problem : FileProblem) : Outcome :=
    ⟨1, "", "Error: failed to read " ++ name ++ "\n\nCaused by:\n    " ++ problem.message ++ "\n"⟩

/-- What remains to be reported once a conversation has ended. -/
def closing : Repl.Ending → Outcome
  | .endOfInput | .farewell => ⟨0, "", ""⟩
  | .notText => ⟨1, "", "Error: " ++ FileProblem.notText.message ++ "\n"⟩
  | .exhausted => ⟨1, "", "Error: calls nested too deeply\n"⟩

/-- The outcome of what some arguments ask for, given the files and the
standard input. -/
def run (depth : Nat) (readFile : String → Except FileProblem (List UInt8)) (input : List UInt8)
    (arguments : List String) : Outcome :=
  match parse arguments with
  | none => refused
  | some .version => ⟨0, "monkey 0.1.0\n", ""⟩
  | some (.evaluate code showTree) => runSource depth code showTree
  | some (.runFile name showTree) => runContent depth name showTree (readFile name)
  | some .converse =>
    let transcript := Repl.start depth input
    { closing transcript.ending with stdout := transcript.output }

end CommandLine

end MonkeyLang
