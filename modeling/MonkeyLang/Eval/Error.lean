import MonkeyLang.Value.Basic
/-!
# Runtime errors

The causes for which an evaluation stops, each with its message.
-/

namespace MonkeyLang

/-- Why an evaluation stopped. -/
inductive EvalError where
  /-- A name that neither a scope nor a builtin has. -/
  | unbound (name : String)
  /-- An operator between values of different types. -/
  | typeMismatch (left : ValueType) (op : BinaryOp) (right : ValueType)
  /-- An operator before a value that it does not know. -/
  | unknownUnary (op : UnaryOp) (operand : ValueType)
  /-- An operator between two values of a type that it does not know. -/
  | unknownBinary (left : ValueType) (op : BinaryOp) (right : ValueType)
  | divisionByZero
  /-- A value that no hash can have as key. -/
  | unhashable (key : ValueType)
  /-- An index into a value that has none, or not of that type. -/
  | notIndexable (left : ValueType)
  /-- A call of a value that is no function. -/
  | notCallable (callee : ValueType)
  /-- A call of a function with the wrong number of arguments. -/
  | arity (wanted found : Nat)
  /-- A call of a builtin with the wrong number of arguments. -/
  | builtinArity (wanted found : Nat)
  /-- An argument that the builtin does not know. -/
  | unsupportedArgument (callee : Builtin) (found : ValueType)
  /-- An argument that is not of the one type that the builtin takes. -/
  | wrongArgument (callee : Builtin) (wanted found : ValueType)
  deriving DecidableEq

/-- The text of a runtime error. -/
def EvalError.message : EvalError → String
  | .unbound name => "undefined identifier: " ++ name
  | .typeMismatch left op right =>
    "type mismatch: " ++ left.name ++ " " ++ op.symbol ++ " " ++ right.name
  | .unknownUnary op operand => "unknown operation: " ++ op.symbol ++ operand.name
  | .unknownBinary left op right =>
    "unknown operation: " ++ left.name ++ " " ++ op.symbol ++ " " ++ right.name
  | .divisionByZero => "division by zero"
  | .unhashable key => "invalid as hash key: " ++ key.name
  | .notIndexable left => "invalid index operator: " ++ left.name
  | .notCallable callee => "not a function: " ++ callee.name
  | .arity wanted found =>
    "wrong number of arguments: want=" ++ toString wanted ++ ", got=" ++ toString found
  | .builtinArity wanted found =>
    "wrong number of arguments. got=" ++ toString found ++ ", want=" ++ toString wanted
  | .unsupportedArgument callee found =>
    "argument to `" ++ callee.name ++ "` not supported, got " ++ found.name
  | .wrongArgument callee wanted found =>
    "argument to `" ++ callee.name ++ "` must be " ++ wanted.name ++ ", got " ++ found.name

end MonkeyLang
