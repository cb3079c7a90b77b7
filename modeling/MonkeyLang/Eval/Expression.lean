import MonkeyLang.Eval.Basic
import MonkeyLang.Eval.Operator
/-!
# Evaluation of syntax trees

The value of each kind of expression and statement in a scope of the store.
Operands, elements and arguments are evaluated from left to right, and
whatever stops early stops all that is around it. What a call does is left
open here: these functions take it as an argument and recurse on the tree
alone.
-/

namespace MonkeyLang

/-- What applying a value to arguments does. -/
abbrev Applier : Type := Value → List Value → Eval EvalError Value

/-- The value of a name: that of the nearest scope that binds it, else the
builtin. -/
def evalName (scope : ScopeId) (name : String) : Eval Unwind Value := do
  match ← Eval.ask (·.lookup scope name), Builtin.ofName? name with
  | some value, _ => return value
  | none, some builtin => return .builtin builtin
  | none, none => Eval.stop (.failed (.unbound name))

/-- The content under which a hash has a value as key. -/
def evalHashKey (key : Value) : Eval Unwind HashKey :=
  match key.hashKey? with
  | some k => return k
  | none => Eval.stop (.failed (.unhashable key.type))

variable (apply : Applier) (scope : ScopeId)

mutual

/-- The value of an expression. -/
def Expr.eval : Expr → Eval Unwind Value
  | .int value => return .int value
  | .bool value => return .bool value
  | .string value => return .string value
  | .ident name => evalName scope name
  | .array elements => do
    let values ← Expr.evalAll elements
    Eval.newArray values
  | .hash pairs => do
    let entries ← Expr.evalPairs pairs
    Eval.newHash (.ofList entries)
  | .unary op operand => do
    let value ← operand.eval
    Eval.orFail (op.apply value)
  | .binary op left right => do
    let l ← left.eval
    let r ← right.eval
    Eval.orFail (op.apply l r)
  | .cond condition consequence none => do
    let value ← condition.eval
    if value.isTruthy then Stmt.evalAll .null consequence else return .null
  | .cond condition consequence (some alternative) => do
    let value ← condition.eval
    if value.isTruthy then Stmt.evalAll .null consequence else Stmt.evalAll .null alternative
  | .function parameters body => Eval.newFunction ⟨parameters, body, scope⟩
  | .call callee arguments => do
    let f ← callee.eval
    let values ← Expr.evalAll arguments
    (apply f values).mapReason .failed
  | .index left position => do
    let l ← left.eval
    let p ← position.eval
    Eval.orFail (l.index p)

/-- The values of expressions, from left to right. -/
def Expr.evalAll : List Expr → Eval Unwind (List Value)
  | [] => return []
  | e :: es => do
    let value ← e.eval
    let values ← Expr.evalAll es
    return value :: values

/-- The pairs of a hash, from left to right. A value that cannot be a key
is refused before the value that belongs to it is evaluated. -/
def Expr.evalPairs : List (Expr × Expr) → Eval Unwind (List (HashKey × (Value × Value)))
  | [] => return []
  | (keyExpr, valueExpr) :: pairs => do
    let key ← keyExpr.eval
    let k ← evalHashKey key
    let value ← valueExpr.eval
    let entries ← Expr.evalPairs pairs
    return (k, key, value) :: entries

/-- What a statement yields. A `let` yields `null`; a `return` stops the
evaluation. -/
def Stmt.eval : Stmt → Eval Unwind Value
  | .bind name valueExpr => do
    let value ← valueExpr.eval
    Eval.bindName scope name value
    return .null
  | .ret valueExpr => do
    let value ← valueExpr.eval
    Eval.stop (.returned value)
  | .expr valueExpr => valueExpr.eval
  | .block body => Stmt.evalAll .null body

/-- What the last of some statements yields, or the given value if there is
none. -/
def Stmt.evalAll (last : Value) : List Stmt → Eval Unwind Value
  | [] => return last
  | s :: ss => do
    let value ← s.eval
    Stmt.evalAll value ss

end

end MonkeyLang
