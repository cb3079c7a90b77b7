import MonkeyLang.Eval.Builtin
import MonkeyLang.Eval.Expression
/-!
# Calls and runs

What a call does, and the evaluation of programs, single statements and
single expressions that results. A call of a function evaluates its body in
a new scope inside the one in which the function was made. How deeply calls
may be nested is bounded by an argument; a run that would go deeper has no
result.
-/

namespace MonkeyLang

/-- Calls a function: `run` evaluates its body in the scope made for the
call. -/
def Closure.call (run : ScopeId → List Stmt → Eval Unwind Value) (closure : Closure)
    (arguments : List Value) : Eval EvalError Value := do
  if closure.parameters.length ≠ arguments.length then
    Eval.stop (.arity closure.parameters.length arguments.length)
  else
    let scope ← Eval.create (·.newScope (some closure.scope))
    Eval.bindNames scope (closure.parameters.zip arguments)
    (run scope closure.body).atCall

/-- Calls a builtin. -/
def Builtin.call (b : Builtin) (arguments : List Value) : Eval EvalError Value := do
  match ← Eval.ofExcept (b.apply arguments) with
  | .known value => return value
  | .newArray elements => Eval.newArray elements

/-- Applies a value to arguments; `run` evaluates the bodies of functions. -/
def Value.applyWith (run : ScopeId → List Stmt → Eval Unwind Value) : Applier
  | .function _ closure, arguments => closure.call run arguments
  | .builtin b, arguments => b.call arguments
  | callee, _ => Eval.stop (.notCallable callee.type)

/-- Evaluates statements in a scope, running at most `depth` bodies inside
one another, of which the statements themselves are the first. -/
def runBody : (depth : Nat) → ScopeId → List Stmt → Eval Unwind Value
  | 0, _, _ => Eval.exhausted
  | depth + 1, scope, body => Stmt.evalAll (Value.applyWith (runBody depth)) scope .null body

/-- Applies a value to arguments, with at most `depth` calls inside one
another. -/
def Value.apply (depth : Nat) : Applier := Value.applyWith (runBody depth)

/-! ## Runs -/

namespace Eval

/-- The value that an evaluation comes to, and the store it leaves: a
reason for stopping early becomes a value, too. -/
def settle {ε : Type} (reason : ε → Value) (x : Eval ε Value) (s : Store) :
    Option (Value × Store) :=
  match x s with
  | some (.ok v, s') => some (v, s')
  | some (.error e, s') => some (reason e, s')
  | none => none

end Eval

/-- An error as a value. -/
def EvalError.toValue (e : EvalError) : Value := .error e.message

/-- What stopped an evaluation, as a value. -/
def Unwind.toValue : Unwind → Value
  | .returned v => .returned v
  | .failed e => e.toValue

/-- Runs one expression in a scope. A `return` inside it that no call has
taken up comes out as a value of its own kind. -/
def Expr.run (depth : Nat) (e : Expr) (scope : ScopeId) : Store → Option (Value × Store) :=
  (e.eval (Value.apply depth) scope).settle Unwind.toValue

/-- Runs one statement in a scope. A `return` that no call has taken up
comes out as a value of its own kind. -/
def Stmt.run (depth : Nat) (st : Stmt) (scope : ScopeId) : Store → Option (Value × Store) :=
  (st.eval (Value.apply depth) scope).settle Unwind.toValue

/-- Runs a program in a scope. A `return` that no call has taken up ends
the program, and what it carries is the result. -/
def Program.run (depth : Nat) (p : Program) (scope : ScopeId) : Store → Option (Value × Store) :=
  (Stmt.evalAll (Value.apply depth) scope .null p.statements).atCall.settle EvalError.toValue

end MonkeyLang
