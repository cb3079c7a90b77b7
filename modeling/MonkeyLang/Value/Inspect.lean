import MonkeyLang.Text.Quoted
import MonkeyLang.Tree.Render
import MonkeyLang.Value.Basic
/-!
# Values as text

The text with which a session answers a value. Strings stand without
quotes, at any depth; a function is shown as it was written, its body in
canonical form. `Closure.describe` is the other form of a function, in
which diagnostic texts show it.
-/

namespace MonkeyLang

mutual

/-- The text of a value. -/
def Value.inspect : Value → String
  | .int value => toString value
  | .bool value => toString value
  | .string value => value
  | .null => "null"
  | .array _ elements => "[" ++ commaSeparated (Value.inspectAll elements) ++ "]"
  | .hash _ ⟨entries⟩ => "\x7b" ++ commaSeparated (Value.inspectEntries entries) ++ "\x7d"
  | .function _ closure =>
    "fn(" ++ commaSeparated closure.parameters ++ ") \x7b\n" ++ Stmt.renderAll closure.body ++
      "\n\x7d"
  | .builtin _ => "builtin function"
  | .returned value => value.inspect
  | .error message => "ERROR: " ++ message

/-- The text of each value. -/
def Value.inspectAll : List Value → List String
  | [] => []
  | v :: vs => v.inspect :: Value.inspectAll vs

/-- The text of each pair, with a colon between key and value. -/
def Value.inspectEntries : List (HashKey × (Value × Value)) → List String
  | [] => []
  | (_, key, value) :: entries =>
    (key.inspect ++ ": " ++ value.inspect) :: Value.inspectEntries entries

end

/-- A function in diagnostic texts: its parameters, and its body in
canonical form as a quoted text. -/
def Closure.describe (closure : Closure) : String :=
  let parameter (name : String) : String :=
    "Identifier \x7b value: " ++ Quoted.encode name ++ " \x7d"
  "Function \x7b parameters: [" ++ commaSeparated (closure.parameters.map parameter) ++
    "], body: " ++ Quoted.encode (Stmt.renderAll closure.body) ++ ", .. \x7d"

end MonkeyLang
