import MonkeyLang.Eval.Error
/-!
# Builtin functions

`len` counts the characters of a string or the elements of an array; the
others take an array apart or make a longer one. None of them changes its
arguments: where the answer is an array that did not exist before, it is
made anew.
-/

namespace MonkeyLang

/-- What a builtin answers: a value that needs no identity of its own, or
the elements of an array that has to be made. -/
inductive Yield where
  | known (value : Value)
  | newArray (elements : List Value)

namespace Builtin

/-- How many arguments a builtin takes. -/
def arity : Builtin → Nat
  | .append => 2
  | _ => 1

/-- What a builtin makes of a first argument that is an array and of its
other arguments. -/
def applyArray : Builtin → List Value → List Value → Yield
  | .len, elements, _ => .known (.int (.ofNat elements.length))
  | .head, elements, _ => .known (elements.headD .null)
  | .last, elements, _ => .known (elements.getLastD .null)
  | .tail, [], _ => .known .null
  | .tail, _ :: rest, _ => .newArray rest
  | .append, elements, others => .newArray (elements ++ others)

/-- What a builtin makes of its arguments. -/
def apply (b : Builtin) (arguments : List Value) : Except EvalError Yield :=
  if arguments.length ≠ b.arity then .error (.builtinArity b.arity arguments.length)
  else
    match b, arguments with
    | b, .array _ elements :: others => .ok (b.applyArray elements others)
    | .len, .string text :: _ => .ok (.known (.int (.ofNat text.length)))
    | .len, v :: _ => .error (.unsupportedArgument .len v.type)
    | b, v :: _ => .error (.wrongArgument b .array v.type)
    | b, [] => .error (.builtinArity b.arity 0)

end Builtin

end MonkeyLang
