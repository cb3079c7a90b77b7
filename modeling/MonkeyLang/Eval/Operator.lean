import MonkeyLang.Eval.Error
/-!
# Operators on values

What the operators make of values. Integers are 64-bit words: sums,
differences and products wrap around, and a quotient is cut off towards
zero. Values of different types are never compared, and values that are
neither integers nor strings only by `==` and `!=`, which ask whether they
are the same one.
-/

namespace MonkeyLang

namespace UnaryOp

/-- What an operator makes of the value behind it. -/
def apply : UnaryOp → Value → Except EvalError Value
  | .not, v => .ok (.bool !v.isTruthy)
  | .negate, .int n => .ok (.int (-n))
  | .negate, v => .error (.unknownUnary .negate v.type)

end UnaryOp

namespace BinaryOp

/-- What an operator makes of two integers. -/
def applyInt (op : BinaryOp) (a b : Int64) : Except EvalError Value :=
  match op with
  | .add => .ok (.int (a + b))
  | .sub => .ok (.int (a - b))
  | .mul => .ok (.int (a * b))
  | .div => if b = 0 then .error .divisionByZero else .ok (.int (a / b))
  | .lt => .ok (.bool (decide (a < b)))
  | .gt => .ok (.bool (decide (b < a)))
  | .eq => .ok (.bool (a == b))
  | .ne => .ok (.bool (a != b))

/-- What an operator makes of two strings. -/
def applyString (op : BinaryOp) (a b : String) : Except EvalError Value :=
  match op with
  | .add => .ok (.string (a ++ b))
  | .eq => .ok (.bool (a == b))
  | .ne => .ok (.bool (a != b))
  | op => .error (.unknownBinary .string op .string)

/-- What an operator makes of the values around it. -/
def apply (op : BinaryOp) : Value → Value → Except EvalError Value
  | .int a, .int b => op.applyInt a b
  | .string a, .string b => op.applyString a b
  | left, right =>
    if left.type ≠ right.type then .error (.typeMismatch left.type op right.type)
    else
      match op with
      | .eq => .ok (.bool (left.identical right))
      | .ne => .ok (.bool !left.identical right)
      | op => .error (.unknownBinary left.type op right.type)

end BinaryOp

namespace Value

/-- The element of an array at a position, or `null` where it has none. -/
def elementAt (elements : List Value) (position : Int64) : Value :=
  if position < 0 then .null else elements.getD position.toInt.toNat .null

/-- What a value has at an index: an array at an integer, a hash at any
key. -/
def index : Value → Value → Except EvalError Value
  | .array _ elements, .int position => .ok (elementAt elements position)
  | .hash _ pairs, key =>
    match key.hashKey? with
    | some k => .ok (((pairs.get? k).map Prod.snd).getD .null)
    | none => .error (.unhashable key.type)
  | left, _ => .error (.notIndexable left.type)

end Value

end MonkeyLang
