import MonkeyLang.Token
/-!
# Operators

The two operators that stand before their operand and the eight that stand
between two. Each is written with the symbol of the token that introduces
it.
-/

namespace MonkeyLang

/-- An operator before its operand. -/
inductive UnaryOp where
  | not
  | negate
  deriving DecidableEq, Repr

/-- An operator between its operands. -/
inductive BinaryOp where
  | add
  | sub
  | mul
  | div
  | lt
  | gt
  | eq
  | ne
  deriving DecidableEq, Repr

namespace UnaryOp

/-- How the operator is written. -/
def symbol : UnaryOp → String
  | .not => "!"
  | .negate => "-"

/-- The operator that a token before an operand stands for. -/
def ofKind? : TokenKind → Option UnaryOp
  | .bang => some .not
  | .minus => some .negate
  | _ => none

/-- The token that introduces the operator. -/
def kind : UnaryOp → TokenKind
  | .not => .bang
  | .negate => .minus

/-- A token stands for the operator that it introduces, and for no
other. -/
theorem ofKind?_eq_some_iff {k : TokenKind} {op : UnaryOp} : ofKind? k = some op ↔ k = op.kind := by
  cases op <;> cases k <;> decide

theorem name_kind (op : UnaryOp) : op.kind.name = op.symbol := by cases op <;> rfl

end UnaryOp

namespace BinaryOp

/-- How the operator is written. -/
def symbol : BinaryOp → String
  | .add => "+"
  | .sub => "-"
  | .mul => "*"
  | .div => "/"
  | .lt => "<"
  | .gt => ">"
  | .eq => "=="
  | .ne => "!="

/-- The operator that a token between two operands stands for. -/
def ofKind? : TokenKind → Option BinaryOp
  | .plus => some .add
  | .minus => some .sub
  | .asterisk => some .mul
  | .slash => some .div
  | .lt => some .lt
  | .gt => some .gt
  | .eq => some .eq
  | .notEq => some .ne
  | _ => none

/-- The token that introduces the operator. -/
def kind : BinaryOp → TokenKind
  | .add => .plus
  | .sub => .minus
  | .mul => .asterisk
  | .div => .slash
  | .lt => .lt
  | .gt => .gt
  | .eq => .eq
  | .ne => .notEq

theorem ofKind?_eq_some_iff {k : TokenKind} {op : BinaryOp} :
    ofKind? k = some op ↔ k = op.kind := by
  cases op <;> cases k <;> decide

theorem name_kind (op : BinaryOp) : op.kind.name = op.symbol := by cases op <;> rfl

end BinaryOp

end MonkeyLang
